import RecordTape.Blob
/-!
# Lines of digits read back

A reader of hexadecimal output cuts it after each line feed and reads each line as pairs of digits
(`Spells`). Two digits stand for each byte, whichever it is, and none of them is a line feed, so the
lines of a list of blobs are read back as that list and as no other (`spells_hexLines_iff`), however
long the blobs are and whatever bytes they hold.
-/

namespace RecordTape

namespace Hex

theorem lineFeed_not_mem_digit : ∀ n < 16, 10 ∉ String.utf8EncodeChar (digit n) := by decide

theorem lineFeed_not_mem_encode (bs : Bytes) : 10 ∉ Bytes.ofText (encode bs) := by
  rw [Bytes.ofText_eq_flatMap, encode, String.toList_ofList]
  intro h
  obtain ⟨c, hc, hline⟩ := List.mem_flatMap.mp h
  obtain ⟨b, -, hb⟩ := List.mem_flatMap.mp hc
  have hbyte : b.toNat < 256 := b.toNat_lt
  simp only [List.mem_cons, List.not_mem_nil, or_false] at hb
  rcases hb with rfl | rfl
  · exact lineFeed_not_mem_digit _ (by omega) hline
  · exact lineFeed_not_mem_digit _ (by omega) hline

theorem decode_encode (bs : Bytes) : decode (encode bs) = some bs := by
  rw [decode, encode, String.toList_ofList, decodeChars_encodeChars]

end Hex

namespace Blob

/-- The text comes apart into lines, each with a line feed at its end, that are the blobs in pairs
of hexadecimal digits: one line for each blob, in their order. -/
inductive Spells : Bytes → List Bytes → Prop
  | nil : Spells [] []
  | cons {line rest blob : Bytes} {digits : String} {blobs : List Bytes} : 10 ∉ line →
    Bytes.toText? line = some digits → Hex.decode digits = some blob → Spells rest blobs →
    Spells (line ++ 10 :: rest) (blob :: blobs)

theorem takeWhile_line {line : Bytes} (h : 10 ∉ line) (rest : Bytes) :
    (line ++ 10 :: rest).takeWhile (· != 10) = line := by
  have hother : ∀ b ∈ line, b != 10 := fun b hb => bne_iff_ne.mpr fun heq => h (heq ▸ hb)
  rw [List.takeWhile_append_of_pos hother]
  simp

/-- The first line feed cuts bytes in one way. -/
theorem line_unique {line line' rest rest' : Bytes} (h : 10 ∉ line) (h' : 10 ∉ line')
    (heq : line ++ 10 :: rest = line' ++ 10 :: rest') : line = line' ∧ rest = rest' := by
  have hline : line = line' := by rw [← takeWhile_line h rest, heq, takeWhile_line h']
  subst hline
  exact ⟨rfl, (List.cons.inj (List.append_cancel_left heq)).2⟩

/-- A text spells one list of blobs. -/
theorem Spells.unique {text : Bytes} {blobs blobs' : List Bytes} (h : Spells text blobs)
    (h' : Spells text blobs') : blobs = blobs' := by
  induction h generalizing blobs' with
  | nil =>
    generalize htext : ([] : Bytes) = text at h'
    cases h' with
    | nil => rfl
    | cons _ _ _ _ => simp at htext
  | @cons line rest blob digits blobs hline htext hdigits _ ih =>
    generalize hwhole : line ++ 10 :: rest = text at h'
    cases h' with
    | nil => simp at hwhole
    | cons hline' htext' hdigits' hrest' =>
      obtain ⟨rfl, rfl⟩ := line_unique hline hline' hwhole
      rw [htext, Option.some.injEq] at htext'
      subst htext'
      rw [hdigits, Option.some.injEq] at hdigits'
      rw [hdigits', ih hrest']

theorem hexLine_eq (blob : Bytes) : hexLine blob = Bytes.ofText (Hex.encode blob) ++ [10] :=
  Bytes.ofText_append _ _

theorem spells_hexLines (blobs : List Bytes) : Spells (blobs.flatMap hexLine) blobs := by
  induction blobs with
  | nil => exact .nil
  | cons blob blobs ih =>
    rw [List.flatMap_cons, hexLine_eq, List.append_assoc, List.singleton_append]
    exact .cons (Hex.lineFeed_not_mem_encode blob) (Bytes.toText?_ofText _) (Hex.decode_encode blob)
      ih

/-- The lines of blobs are read back as these blobs and as no others. -/
theorem spells_hexLines_iff {blobs blobs' : List Bytes} :
    Spells (blobs.flatMap hexLine) blobs' ↔ blobs' = blobs := by
  constructor
  · intro h
    exact h.unique (spells_hexLines blobs)
  · rintro rfl
    exact spells_hexLines blobs'

end Blob
end RecordTape
