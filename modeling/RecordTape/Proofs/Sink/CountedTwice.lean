import RecordTape.Proofs.Sink.Buffering
/-!
# Bytes counted twice

The bytes written in a binding are those that the sink gained, and behind them those that are still
pending. The buffer holds the pending ones, and so `buffered` counts exactly what was not handed
over, unless a drain was cut short: it failed after the sink took a part of the buffer. The buffer
keeps that part too, in front of the pending bytes, and from then on it is counted twice
(`gained_add_buffered`, `gained_add_buffered_cut`).

`Accounted` says where the bytes are between two requests. Whether a drain was cut short is not lost
again, since the sink is spent by then and no later drain can empty the buffer.
-/

namespace RecordTape

namespace Binding

open Request

/-- The request makes a drain that fails after the sink took a part of the buffer. -/
def CutShort (b : Binding) (r : Request) : Prop :=
  (∃ e, b.drainOf r = some (.error e)) ∧ (b.answer r).2.sink.accepted ≠ b.sink.accepted

theorem not_cutShort {b : Binding} {r : Request} (h : ∀ e, b.drainOf r ≠ some (.error e)) :
    ¬ b.CutShort r := by
  rintro ⟨⟨e, he⟩, -⟩
  exact h e he

/-- Some drain of the requests is cut short. -/
def AnyCutShort (b : Binding) : List Request → Prop
  | [] => False
  | r :: rest => b.CutShort r ∨ (b.answer r).2.AnyCutShort rest

/-- Where bytes are: the sink has gained some since it had accepted those at the start, and the
buffer holds the pending ones behind those that are also in the sink. -/
structure Accounted (b : Binding) (start gained twice pending : Bytes) : Prop where
  accepted : b.sink.accepted = start ++ gained
  buffer : b.encoder.buffer = twice ++ pending
  suffix : twice <:+ gained
  spent : twice ≠ [] → b.sink.Spent

namespace Accounted

variable {b : Binding} {start gained twice pending : Bytes}

theorem bind (e : Encoder) (sink : Sink) : (e.bind sink).Accounted sink.accepted [] [] [] :=
  ⟨(List.append_nil _).symm, rfl, List.suffix_rfl, fun h => absurd rfl h⟩

/-- The step lemma: a request moves bytes from pending to gained, or leaves some in both. -/
theorem answer (h : b.Accounted start gained twice pending) (r : Request) :
    ∃ gained' twice' pending', (b.answer r).2.Accounted start gained' twice' pending' ∧
      gained' ++ pending' = gained ++ pending ++ r.data ∧
      (twice' ≠ [] ↔ twice ≠ [] ∨ b.CutShort r) := by
  cases b.answered r with
  | held hdrain _ hafter =>
    refine ⟨gained, twice, pending ++ r.data, ?_, (List.append_assoc _ _ _).symm, ?_⟩
    · rw [hafter]
      exact ⟨h.accepted, by rw [append, h.buffer, List.append_assoc], h.suffix, h.spent⟩
    · have hwhole : ¬ b.CutShort r := not_cutShort (by rw [hdrain]; nofun)
      simp [hwhole]
  | drained hdrain hencoder haccepted =>
    have hwhole : ¬ b.CutShort r := not_cutShort (by rw [hdrain]; nofun)
    -- a spent sink takes nothing, but this one took the buffer
    have honce : twice = [] := by
      by_contra htwice
      have hsame := (answer_of_spent (h.spent htwice) r).1
      rw [haccepted, h.buffer, List.append_right_eq_self] at hsame
      simp [htwice] at hsame
    subst honce
    refine ⟨gained ++ pending ++ r.data, [], [], ⟨?_, ?_, List.nil_suffix, ?_⟩,
      List.append_nil _, ?_⟩
    · rw [haccepted, h.accepted, h.buffer]
      simp only [List.nil_append, List.append_assoc]
    · rw [hencoder]
      rfl
    · exact fun hne => absurd rfl hne
    · simp [hwhole]
  | stuck e part hdrain _ hencoder hpart haccepted hspent =>
    have hbuffer : (b.answer r).2.encoder.buffer = twice ++ pending ++ r.data := by
      rw [hencoder, append, h.buffer]
    have hcut : b.CutShort r ↔ part ≠ [] := by
      rw [CutShort, haccepted, ne_eq, List.append_right_eq_self]
      exact and_iff_right ⟨e, hdrain⟩
    by_cases htwice : twice = []
    · subst htwice
      rw [h.buffer, List.nil_append] at hpart
      obtain ⟨rest, hrest⟩ := hpart
      refine ⟨gained ++ part, part, rest, ⟨?_, ?_, List.suffix_append _ _, fun _ => hspent⟩, ?_, ?_⟩
      · rw [haccepted, h.accepted, List.append_assoc]
      · rw [hbuffer, List.nil_append, hrest]
      · rw [List.append_assoc, hrest, List.append_assoc]
      · simp [hcut]
    · -- the sink was spent before, so the drain took nothing
      have hsame := (answer_of_spent (h.spent htwice) r).1
      refine ⟨gained, twice, pending ++ r.data, ⟨?_, ?_, h.suffix, fun _ => hspent⟩,
        (List.append_assoc _ _ _).symm, ?_⟩
      · rw [hsame, h.accepted]
      · rw [hbuffer, List.append_assoc]
      · simp [htwice]

/-- The run lemma. -/
theorem after (h : b.Accounted start gained twice pending) (requests : List Request) :
    ∃ gained' twice' pending', (b.after requests).Accounted start gained' twice' pending' ∧
      gained' ++ pending' = gained ++ pending ++ written requests ∧
      (twice' ≠ [] ↔ twice ≠ [] ∨ b.AnyCutShort requests) := by
  induction requests generalizing b gained twice pending with
  | nil =>
    exact ⟨gained, twice, pending, h, (List.append_nil _).symm, by rw [AnyCutShort, or_false]⟩
  | cons r rest ih =>
    obtain ⟨gained₁, twice₁, pending₁, hnext, hbytes, hcut⟩ := h.answer r
    obtain ⟨gained₂, twice₂, pending₂, hlast, hbytes', hcut'⟩ := ih hnext
    refine ⟨gained₂, twice₂, pending₂, hlast, ?_, ?_⟩
    · rw [hbytes', hbytes, written_cons, List.append_assoc]
    · rw [hcut', hcut, or_assoc]
      rfl

end Accounted

/-- What the sink gained is the front of what was written and the pending bytes are the rest, after
any requests, whatever became of each. The buffer holds the pending bytes behind the last ones
gained, so that what was gained and what is buffered add up to what was written if and only if no
drain was cut short. -/
theorem gained_add_buffered (e : Encoder) (sink : Sink) (requests : List Request) :
    let b := (e.bind sink).after requests
    ∃ gained twice pending : Bytes,
      b.sink.accepted = sink.accepted ++ gained ∧
      gained ++ pending = written requests ∧
      b.encoder.buffer = twice ++ pending ∧ twice <:+ gained ∧
      gained.length + b.buffered = (written requests).length + twice.length ∧
      (gained.length + b.buffered = (written requests).length ↔
        ¬ (e.bind sink).AnyCutShort requests) := by
  intro b
  obtain ⟨gained, twice, pending, h, hbytes, hcut⟩ := (Accounted.bind e sink).after requests
  rw [List.nil_append, List.nil_append] at hbytes
  have hsum : gained.length + b.buffered = (written requests).length + twice.length := by
    rw [buffered, h.buffer, ← hbytes, List.length_append, List.length_append]
    omega
  refine ⟨gained, twice, pending, h.accepted, hbytes, h.buffer, h.suffix, hsum, ?_⟩
  have hnone : twice = [] ↔ ¬ (e.bind sink).AnyCutShort requests := by
    rw [← not_iff_not, not_not, ← ne_eq, hcut]
    simp
  rw [hsum, ← hnone, ← List.length_eq_zero_iff]
  omega

/-- A sink with room for three bytes. -/
def smallSink : Sink := { Sink.memory with limit := some 3 }

/-- A flush of five bytes is cut short after three, and five are still said to wait. -/
theorem gained_add_buffered_cut :
    let requests := [.write [1, 2, 3, 4, 5], .flush]
    let b := ((Encoder.ofSize 16).bind smallSink).after requests
    b.sink.accepted = [1, 2, 3] ∧ b.buffered = 5 ∧ (written requests).length = 5 ∧
      b.sink.accepted.length + b.buffered ≠ (written requests).length := by
  decide +kernel

end Binding
end RecordTape
