import RecordTape.CommandLine.Run
/-!
# The lines of an input

What the lines of an input are and what each holds, said without the functions that find out:
`Lines` is cutting bytes at line feeds, `Record.Spelled` is which JSON texts stand for a record, and
`Reads` is what a line is taken for. Each of them is the function it stands for (`lines_iff`,
`Record.ofText?_eq_some`, `reads_iff`).
-/

namespace RecordTape

namespace Record

/-- A JSON text that stands for a record: an object with one member `key` and one member `value`
among others, whose names are all texts, or an array of the two. -/
inductive Spelled : Json.Text → Record Json Json → Prop
  | object {members : List (List Json.StringUnit × Json.Text)}
    {named : List (String × Json.Text)} {k v : Json.Text} {key value : Json} :
    members.mapM (fun (units, t) => do return (← Json.textOfUnits units, t)) = some named →
    membersNamed "key" named = [k] → membersNamed "value" named = [v] →
    k.toJson? innerDepth = some key → v.toJson? innerDepth = some value →
    Spelled (.object members) ⟨key, value⟩
  | array {k v : Json.Text} {key value : Json} :
    k.toJson? innerDepth = some key → v.toJson? innerDepth = some value →
    Spelled (.array [k, v]) ⟨key, value⟩

theorem ofText?_eq_some {t : Json.Text} {r : Record Json Json} :
    ofText? t = some r ↔ Spelled t r := by
  constructor
  · intro h
    unfold ofText? at h
    split at h
    · obtain ⟨key, hkey, h⟩ := Option.bind_eq_some_iff.mp h
      obtain ⟨value, hvalue, ⟨⟩⟩ := Option.bind_eq_some_iff.mp h
      exact .array hkey hvalue
    · obtain ⟨named, hnamed, h⟩ := Option.bind_eq_some_iff.mp h
      split at h
      · obtain ⟨key, hkey, h⟩ := Option.bind_eq_some_iff.mp h
        obtain ⟨value, hvalue, ⟨⟩⟩ := Option.bind_eq_some_iff.mp h
        exact .object hnamed ‹_› ‹_› hkey hvalue
      · cases h
    · cases h
  · rintro (⟨hnamed, hk, hv, hkey, hvalue⟩ | ⟨hkey, hvalue⟩)
    · refine Option.bind_eq_some_iff.mpr ⟨_, hnamed, ?_⟩
      simp only [hk, hv, hkey, hvalue, Option.bind_eq_bind, Option.bind_some, Option.pure_def]
    · simp only [ofText?, hkey, hvalue, Option.bind_eq_bind, Option.bind_some, Option.pure_def]

end Record

namespace CommandLine

/-! ## Cutting -/

/-- An input and its lines: a line goes up to the next line feed, and loses a carriage return
before it; what follows the last line feed is a line unless there is nothing. -/
inductive Lines : Bytes → List Bytes → Prop
  | none : Lines [] []
  | last {line : Bytes} : 10 ∉ line → line ≠ [] → Lines line [line]
  | ended {line rest : Bytes} {lines : List Bytes} :
    10 ∉ line → Lines rest lines → Lines (line ++ 10 :: rest) (trimEnd line :: lines)

/-- Bytes without a line feed only add to the line that is open. -/
theorem splitLines_append {line : Bytes} (h : 10 ∉ line) (before rest : Bytes) :
    splitLines before (line ++ rest) = splitLines (line.reverse ++ before) rest := by
  induction line generalizing before with
  | nil => rfl
  | cons b line ih =>
    rw [List.mem_cons, not_or] at h
    obtain ⟨hb, hline⟩ := h
    rw [List.cons_append, splitLines, if_neg (Ne.symm hb), ih hline]
    simp

theorem splitLines_lines {before : Bytes} (h : 10 ∉ before) (input : Bytes) :
    Lines (before.reverse ++ input) (splitLines before input) := by
  induction input generalizing before with
  | nil =>
    rw [splitLines, List.append_nil]
    split
    · rename_i hempty
      rw [List.isEmpty_iff.mp hempty]
      exact .none
    · rename_i hopen
      exact .last (by simpa using h) (by simpa using hopen)
  | cons b rest ih =>
    rw [splitLines]
    split
    · subst b
      exact .ended (by simpa using h) (ih List.not_mem_nil)
    · rename_i hb
      have hopen : 10 ∉ b :: before := by
        rw [List.mem_cons, not_or]
        exact ⟨Ne.symm hb, h⟩
      simpa using ih hopen

theorem lines_iff {input : Bytes} {lines : List Bytes} :
    Lines input lines ↔ linesOf input = lines := by
  constructor
  · intro h
    induction h with
    | none => rfl
    | @last line hline hne =>
      have hcut := splitLines_append hline [] []
      simp only [List.append_nil] at hcut
      rw [linesOf, hcut, splitLines, if_neg (by simpa using hne), List.reverse_reverse]
    | @ended line rest lines hline _ ih =>
      rw [linesOf, splitLines_append hline, splitLines, if_pos rfl, List.append_nil,
        List.reverse_reverse]
      exact congrArg _ ih
  · rintro rfl
    exact splitLines_lines List.not_mem_nil input

/-! ## Reading -/

/-- What a line is taken for. A text is blank first, and only then a record or not. -/
inductive Reads (line : Bytes) : LineContent → Prop
  | notText : Bytes.toText? line = none → Reads line .notText
  | blank {text : String} : Bytes.toText? line = some text → Text.isBlank text → Reads line .blank
  | invalid {text : String} : Bytes.toText? line = some text → Text.isBlank text = false →
    (∀ t r, Json.Text.parse text = some t → ¬ Record.Spelled t r) → Reads line .invalid
  | record {text : String} {t : Json.Text} {r : Record Json Json} :
    Bytes.toText? line = some text → Text.isBlank text = false →
    Json.Text.parse text = some t → Record.Spelled t r → Reads line (.record r)

theorem reads_iff {line : Bytes} {content : LineContent} :
    Reads line content ↔ LineContent.ofBytes line = content := by
  unfold LineContent.ofBytes
  constructor
  · rintro (htext | ⟨htext, hblank⟩ | ⟨htext, hblank, hno⟩ | ⟨htext, hblank, hparse, hrecord⟩)
    · rw [htext]
    · simp only [htext, hblank, if_true]
    · rename_i text
      have hnone : Record.parse text = none := by
        cases h : Record.parse text with
        | none => rfl
        | some r =>
          obtain ⟨t, ht, hr⟩ := Option.bind_eq_some_iff.mp h
          exact absurd (Record.ofText?_eq_some.mp hr) (hno t r ht)
      simp only [htext, hblank, hnone, Bool.false_eq_true, if_false]
    · rename_i text t r
      have hsome : Record.parse text = some r :=
        Option.bind_eq_some_iff.mpr ⟨t, hparse, Record.ofText?_eq_some.mpr hrecord⟩
      simp only [htext, hblank, hsome, Bool.false_eq_true, if_false]
  · rintro rfl
    cases htext : Bytes.toText? line with
    | none => exact .notText htext
    | some text =>
      simp only
      cases hblank : Text.isBlank text with
      | true => exact .blank htext hblank
      | false =>
        simp only [Bool.false_eq_true, if_false]
        cases h : Record.parse text with
        | none =>
          refine .invalid htext hblank fun t r ht hr => ?_
          have hsome : Record.parse text = some r :=
            Option.bind_eq_some_iff.mpr ⟨t, ht, Record.ofText?_eq_some.mpr hr⟩
          rw [h] at hsome
          cases hsome
        | some r =>
          obtain ⟨t, ht, hr⟩ := Option.bind_eq_some_iff.mp h
          exact .record htext hblank ht (Record.ofText?_eq_some.mp hr)

/-- A line is taken for one thing. -/
theorem Reads.unique {line : Bytes} {content content' : LineContent} (h : Reads line content)
    (h' : Reads line content') : content = content' :=
  (reads_iff.mp h).symm.trans (reads_iff.mp h')

end CommandLine
end RecordTape
