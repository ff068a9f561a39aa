import Mathlib.Tactic.Common
import RecordTape.Sink
/-!
# Delivery to a sink

What becomes of bytes that are written to a sink until it refuses. `Sink.share` counts how many of
them the sink takes; it is a matter of the limit and the chunk only, and neither interruptions nor
the parts in which the bytes are taken have a part in it. `writeAll` appends exactly that many
bytes, succeeds if these are all, and leaves everything about the sink alone that decides what a
later write or flush comes to.
-/

namespace RecordTape.Sink

open ByteSink (writeAll)

/-- How many of `n` bytes the sink takes if they are written to it to the end. -/
def share (s : Sink) (n : Nat) : Nat :=
  if s.chunk = some 0 then 0
  else
    match s.limit with
    | some limit => min n (limit - s.accepted.length)
    | none => n

/-- Two sinks that take the same bytes in the end and answer every later flush alike. They may be
interrupted at other times and take the bytes in other parts. -/
structure SameTerms (s s' : Sink) : Prop where
  limit : s'.limit = s.limit
  chunk : s'.chunk = s.chunk
  stalls : s'.stalls = s.stalls
  refusal : s'.refusal = s.refusal
  flushFailure : s'.flushFailure = s.flushFailure
  laterFlushes : s'.laterFlushes = s.laterFlushes
  flushes : s'.flushes = s.flushes

theorem SameTerms.refl (s : Sink) : SameTerms s s := ⟨rfl, rfl, rfl, rfl, rfl, rfl, rfl⟩

theorem SameTerms.trans {a b c : Sink} (h : SameTerms a b) (h' : SameTerms b c) : SameTerms a c :=
  ⟨h'.limit.trans h.limit, h'.chunk.trans h.chunk, h'.stalls.trans h.stalls,
    h'.refusal.trans h.refusal, h'.flushFailure.trans h.flushFailure,
    h'.laterFlushes.trans h.laterFlushes, h'.flushes.trans h.flushes⟩

theorem sameTerms_accept (s : Sink) (data : Bytes) : SameTerms s (s.accept data) := by
  unfold accept nextTurn
  split <;> exact ⟨rfl, rfl, rfl, rfl, rfl, rfl, rfl⟩

theorem share_le (s : Sink) (n : Nat) : s.share n ≤ n := by
  unfold share
  split
  · exact Nat.zero_le n
  · split
    · exact Nat.min_le_left _ _
    · exact Nat.le_refl n

/-! ## One write -/

theorem space_le (s : Sink) (data : Bytes) : s.space data ≤ data.length := by
  unfold space
  simp only
  split <;> split <;> omega

theorem room_le (s : Sink) (data : Bytes) : s.room data ≤ data.length := by
  have := s.space_le data
  unfold room
  split <;> omega

/-- A write that is not interrupted takes nothing exactly if the sink's share of the bytes is
nothing, and never more than its share. -/
theorem room_share {s : Sink} {data : Bytes} (h : data ≠ []) :
    s.room data ≤ s.share data.length ∧
      (s.room data = 0 ↔ s.share data.length = 0) := by
  have hn : 0 < data.length := List.length_pos_iff.2 h
  have hspace : s.space data ≤ s.share data.length ∧
      (s.space data = 0 ↔ s.share data.length = 0) := by
    unfold space share
    rcases s.chunk with _ | chunk <;> rcases s.limit with _ | limit
    · simp
    · simp
    · simp only [Option.some.injEq]
      split <;> omega
    · simp only [Option.some.injEq]
      split <;> omega
  -- a turn leaves at least one byte to the write
  unfold room
  split <;> omega

theorem share_of_isFull {s : Sink} (h : s.isFull) (n : Nat) : s.share n = 0 := by
  unfold share
  unfold isFull at h
  split
  · rfl
  · split <;> simp_all

/-- What one write can do: be interrupted, take a part of the sink's share, or take nothing because
the share is nothing. -/
theorem write_cases (s : Sink) {data : Bytes} (h : data ≠ []) :
    (0 < s.interrupts ∧ s.write data = (.interrupted, { s with interrupts := s.interrupts - 1 })) ∨
    (0 < s.room data ∧ s.room data ≤ s.share data.length ∧
      s.write data = (.accepted (s.room data), s.accept (data.take (s.room data)))) ∨
    (s.share data.length = 0 ∧
      (s.write data = (.accepted 0, s) ∨ s.write data = (.refused s.refusal, s))) := by
  unfold write
  by_cases hi : 0 < s.interrupts
  · exact .inl ⟨hi, if_pos hi⟩
  · by_cases hf : s.isFull
    · refine .inr (.inr ⟨share_of_isFull hf _, ?_⟩)
      rw [if_neg hi, if_pos hf]
      by_cases hs : s.stalls
      · exact .inl (if_pos hs)
      · exact .inr (if_neg hs)
    · obtain ⟨hle, hzero⟩ := room_share (s := s) h
      rw [if_neg hi, if_neg hf]
      by_cases hr : s.room data = 0
      · exact .inr (.inr ⟨hzero.1 hr, .inl (if_pos hr)⟩)
      · exact .inr (.inl ⟨by omega, hle, if_neg hr⟩)

theorem accepted_flush (s : Sink) : s.flush.2.accepted = s.accepted := by
  unfold flush
  cases s.flushFailure <;> rfl

/-! ## Writing everything -/

/-- After a part of the bytes was taken, the rest of the share is the share of the rest. -/
theorem share_accept (s : Sink) {data : Bytes} {n : Nat} (hn : n ≤ s.share data.length)
    (h : 0 < n) :
    n + (s.accept (data.take n)).share (data.drop n).length = s.share data.length := by
  have hle := s.share_le data.length
  have hterms := s.sameTerms_accept (data.take n)
  have haccepted : (s.accept (data.take n)).accepted = s.accepted ++ data.take n := rfl
  unfold share at *
  rw [hterms.chunk, hterms.limit, haccepted]
  simp only [List.length_append, List.length_take, List.length_drop]
  split
  · simp_all
  · rename_i hc
    simp only [hc, if_false] at hn hle
    cases hl : s.limit with
    | none => simp only [hl] at hn ⊢; omega
    | some limit => simp only [hl] at hn ⊢; omega

@[simp] theorem writeAll_nil (s : Sink) : writeAll s [] = (.ok (), s) := by
  rw [writeAll]; rfl

/-- Writing to the end appends the sink's share of the bytes, changes no terms, and succeeds exactly
if the share is everything. -/
theorem writeAll_spec (s : Sink) (data : Bytes) :
    (writeAll s data).2.accepted = s.accepted ++ data.take (s.share data.length) ∧
      SameTerms s (writeAll s data).2 ∧
      ((writeAll s data).1 = .ok () ↔ s.share data.length = data.length) := by
  fun_induction writeAll s data with
  | case1 s data hd =>
    obtain rfl : data = [] := List.isEmpty_iff.1 hd
    exact ⟨by simp, .refl s, by simp [Nat.le_zero.1 (s.share_le 0)]⟩
  | case2 s data hd s' hw ih =>
    -- an interruption changes nothing but the number of interruptions left
    rcases s.write_cases (by simpa using hd) with ⟨_, h⟩ | ⟨_, _, h⟩ | ⟨_, h | h⟩ <;>
      cases h.symm.trans hw
    exact ⟨ih.1, ⟨ih.2.1.limit, ih.2.1.chunk, ih.2.1.stalls, ih.2.1.refusal, ih.2.1.flushFailure,
      ih.2.1.laterFlushes, ih.2.1.flushes⟩, ih.2.2⟩
  | case3 s data hd n s' hw hn ih =>
    rcases s.write_cases (by simpa using hd) with ⟨_, h⟩ | ⟨hpos, hle, h⟩ | ⟨_, h | h⟩ <;>
      cases h.symm.trans hw
    · obtain ⟨ha, ht, hok⟩ := ih
      have hs := s.share_accept hle hpos
      have htake : data.take (s.share data.length) = data.take (s.room data) ++
          (data.drop (s.room data)).take
            ((s.accept (data.take (s.room data))).share (data.drop (s.room data)).length) := by
        rw [← hs, List.take_add]
      refine ⟨?_, (s.sameTerms_accept _).trans ht, ?_⟩
      · rw [ha, htake]; simp [accept]
      · rw [hok, ← hs, List.length_drop]
        have := s.room_le data
        omega
    · omega
  | case4 s data hd n s' hw hn =>
    rcases s.write_cases (by simpa using hd) with ⟨_, h⟩ | ⟨hpos, _, h⟩ | ⟨hz, h | h⟩ <;>
      cases h.symm.trans hw
    · omega
    · refine ⟨by simp [hz], .refl s, ?_⟩
      have : 0 < data.length := List.length_pos_iff.2 (by simpa using hd)
      simp only [reduceCtorEq, false_iff]; omega
  | case5 s data hd e s' hw =>
    rcases s.write_cases (by simpa using hd) with ⟨_, h⟩ | ⟨hpos, _, h⟩ | ⟨hz, h | h⟩ <;>
      cases h.symm.trans hw
    refine ⟨by simp [hz], .refl s, ?_⟩
    have : 0 < data.length := List.length_pos_iff.2 (by simpa using hd)
    simp only [reduceCtorEq, false_iff]; omega

theorem sameTerms_writeAll (s : Sink) (data : Bytes) : SameTerms s (writeAll s data).2 :=
  (s.writeAll_spec data).2.1

end RecordTape.Sink
