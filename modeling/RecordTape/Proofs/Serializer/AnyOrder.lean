import RecordTape.Proofs.Serializer.Ending
import RecordTape.Proofs.Writer.AnyOrder
/-!
# Answers to one record in any order

A record whose maps come up in another order is answered in the same way. A sink looks at how many
bytes it is given and never at which, so it takes the same parts of two encodings of one length
(`Sink.SameCourse`). What it is given may differ in the order of maps, and so may the error that a
refused record gets (`answer_upToOrder`).
-/

namespace RecordTape

open Writer (UpToOrder)

/-! ## Sinks -/

namespace Sink

/-- Sinks that have been through the same, but for the bytes that they hold. -/
structure SameCourse (s s' : Sink) : Prop where
  rest : s' = { s with accepted := s'.accepted }
  length : s'.accepted.length = s.accepted.length

namespace SameCourse

variable {s s' : Sink} {x y : Bytes}

theorem refl (s : Sink) : SameCourse s s := ⟨rfl, rfl⟩

theorem isFull_eq (h : SameCourse s s') : s'.isFull = s.isFull := by
  rw [h.rest, isFull, isFull, h.length]

theorem room_eq (h : SameCourse s s') (hlen : x.length = y.length) : s'.room y = s.room x := by
  rw [h.rest]
  simp only [room, space, h.length, hlen]

theorem accept (h : SameCourse s s') (hlen : x.length = y.length) :
    SameCourse (s.accept x) (s'.accept y) := by
  refine ⟨?_, ?_⟩
  · rw [h.rest]
    unfold Sink.accept nextTurn
    simp only [hlen]
    split <;> rfl
  · simp only [Sink.accept, List.length_append, h.length, hlen]

theorem write (h : SameCourse s s') (hlen : x.length = y.length) :
    (ByteSink.write s x).1 = (ByteSink.write s' y).1 ∧
      SameCourse (ByteSink.write s x).2 (ByteSink.write s' y).2 := by
  have hinterrupts : s'.interrupts = s.interrupts := by rw [h.rest]
  have hstalls : s'.stalls = s.stalls := by rw [h.rest]
  have hrefusal : s'.refusal = s.refusal := by rw [h.rest]
  simp only [byteSink_write, Sink.write]
  rw [hinterrupts, h.isFull_eq, hstalls, hrefusal, h.room_eq hlen]
  split
  · exact ⟨rfl, by rw [h.rest], h.length⟩
  · split
    · split <;> exact ⟨rfl, h⟩
    · split
      · exact ⟨rfl, h⟩
      · exact ⟨rfl, h.accept (by simp only [List.length_take, hlen])⟩

theorem writeAll (h : SameCourse s s') (hlen : x.length = y.length) :
    (ByteSink.writeAll s x).1 = (ByteSink.writeAll s' y).1 ∧
      SameCourse (ByteSink.writeAll s x).2 (ByteSink.writeAll s' y).2 := by
  have hempty {a b : Bytes} (hab : a.length = b.length) : a.isEmpty = b.isEmpty := by
    cases a <;> cases b <;> first | rfl | cases hab
  fun_induction ByteSink.writeAll s x generalizing s' y with
  | case1 s x hx =>
    rw [ByteSink.writeAll, if_pos (hempty hlen ▸ hx)]
    exact ⟨rfl, h⟩
  | case2 s x hx t hw ih =>
    obtain ⟨hresult, hnext⟩ := h.write hlen
    rw [hw] at hresult hnext
    rw [ByteSink.writeAll_eq s' (hempty hlen ▸ hx), ← hresult]
    exact ih hnext hlen
  | case3 s x hx n t hw hn ih =>
    obtain ⟨hresult, hnext⟩ := h.write hlen
    rw [hw] at hresult hnext
    rw [ByteSink.writeAll_eq s' (hempty hlen ▸ hx), ← hresult]
    simp only [if_pos hn]
    exact ih hnext (by simp only [List.length_drop, hlen])
  | case4 s x hx n t hw hn =>
    obtain ⟨hresult, hnext⟩ := h.write hlen
    rw [hw] at hresult hnext
    rw [ByteSink.writeAll_eq s' (hempty hlen ▸ hx), ← hresult]
    simp only [if_neg hn]
    exact ⟨trivial, hnext⟩
  | case5 s x hx e t hw =>
    obtain ⟨hresult, hnext⟩ := h.write hlen
    rw [hw] at hresult hnext
    rw [ByteSink.writeAll_eq s' (hempty hlen ▸ hx), ← hresult]
    exact ⟨rfl, hnext⟩

theorem flush (h : SameCourse s s') : s.flush.1 = s'.flush.1 ∧ SameCourse s.flush.2 s'.flush.2 := by
  have hlength := h.length
  rw [h.rest] at hlength ⊢
  unfold Sink.flush
  cases s.flushFailure <;> exact ⟨rfl, rfl, hlength⟩

theorem deliver (h : SameCourse s s') (hlen : x.length = y.length) :
    (s.deliver x).1 = (s'.deliver y).1 ∧ SameCourse (s.deliver x).2 (s'.deliver y).2 := by
  obtain ⟨hresult, hnext⟩ := h.writeAll hlen
  unfold Sink.deliver
  generalize ByteSink.writeAll s x = p at hresult hnext ⊢
  generalize ByteSink.writeAll s' y = q at hresult hnext ⊢
  obtain ⟨_ | _, t⟩ := p <;> obtain ⟨_, t'⟩ := q <;> cases hresult
  · exact ⟨rfl, hnext⟩
  · exact hnext.flush

end SameCourse
end Sink

/-! ## Answers -/

namespace Serializer

/-- Results that are the same, but for what an encoding error names. -/
inductive SameResult : Outcome TapeError Unit → Outcome TapeError Unit → Prop
  | same (x : Outcome TapeError Unit) : SameResult x x
  | refused (e e' : EncodingFailure) :
    SameResult (.error (.error (.encoding e))) (.error (.error (.encoding e')))

/-- Answers of which neither is a fault, with the same result, and sinks that have been through the
same. -/
inductive Alongside (p q : Outcome TapeError Unit × Sink) : Prop
  | answered : SameResult p.1 q.1 → Sink.SameCourse p.2 q.2 → Alongside p q
  | fault_left (f : Fault) : p.1 = .error (.fault f) → Alongside p q
  | fault_right (f : Fault) : q.1 = .error (.fault f) → Alongside p q

variable {keySchema valueSchema : Schema} {key key' value value' : Outcome TapeError Bytes}

theorem alongside_deliver {s s' : Sink} (h : Sink.SameCourse s s') {x y : Bytes}
    (hlen : x.length = y.length) : Alongside (answerValue (.ok x) s) (answerValue (.ok y) s') := by
  obtain ⟨hresult, hnext⟩ := h.deliver hlen
  unfold answerValue
  simp only
  generalize s.deliver x = p at hresult hnext
  generalize s'.deliver y = q at hresult hnext
  obtain ⟨_ | _, t⟩ := p <;> obtain ⟨_, t'⟩ := q <;> cases hresult <;>
    exact .answered (.same _) hnext

theorem alongside_value (hv : UpToOrder valueSchema value value') {s s' : Sink}
    (h : Sink.SameCourse s s') : Alongside (answerValue value s) (answerValue value' s') := by
  cases hv with
  | same =>
    cases value with
    | error stop => exact .answered (.same _) h
    | ok x => exact alongside_deliver h rfl
  | encoded hxy => exact alongside_deliver h hxy.length
  | refused e e' => exact .answered (.refused e e') h
  | fault_left f _ => exact .fault_left f rfl
  | fault_right _ f => exact .fault_right f rfl

/-- What a call answers once the bytes of its key are there. -/
def answerKey (bytes : Bytes) (value : Outcome TapeError Bytes) (sink : Sink) :
    Outcome TapeError Unit × Sink :=
  match ByteSink.writeAll sink bytes with
  | (.error e, sink) => (.error (.error (.io e)), sink)
  | (.ok (), sink) => answerValue value sink

theorem alongside_key (hv : UpToOrder valueSchema value value') {x y : Bytes}
    (hlen : x.length = y.length) (s : Sink) :
    Alongside (answerKey x value s) (answerKey y value' s) := by
  obtain ⟨hresult, hnext⟩ := (Sink.SameCourse.refl s).writeAll hlen
  unfold answerKey
  generalize ByteSink.writeAll s x = p at hresult hnext
  generalize ByteSink.writeAll s y = q at hresult hnext
  obtain ⟨_ | _, t⟩ := p <;> obtain ⟨_, t'⟩ := q <;> cases hresult
  · exact .answered (.same _) hnext
  · exact alongside_value hv hnext

theorem alongside_answer (hk : UpToOrder keySchema key key')
    (hv : UpToOrder valueSchema value value') (sink : Sink) :
    Alongside (answer key value sink) (answer key' value' sink) := by
  unfold answer
  generalize ByteSink.writeAll sink emptyHeader = p
  obtain ⟨_ | _, s⟩ := p
  · exact .answered (.same _) (.refl s)
  · cases hk with
    | same =>
      cases key with
      | error stop => exact .answered (.same _) (.refl s)
      | ok x => exact alongside_key hv rfl s
    | encoded hxy => exact alongside_key hv hxy.length s
    | refused e e' => exact .answered (.refused e e') (.refl s)
    | fault_left f _ => exact .fault_left f rfl
    | fault_right _ f => exact .fault_right f rfl

/-- Answers of a sink that had `x` and `y` to take: they have the same result, and the sinks have
been through the same and have taken as much of the one as of the other, unless one of the answers
is a fault. -/
inductive AnsweredAlike (sink : Sink) (x y : Bytes) (p q : Outcome TapeError Unit × Sink) : Prop
  | answered (n : Nat) : SameResult p.1 q.1 → Sink.SameCourse p.2 q.2 →
    p.2.accepted = sink.accepted ++ x.take n → q.2.accepted = sink.accepted ++ y.take n →
    AnsweredAlike sink x y p q
  | fault_left (f : Fault) : p.1 = .error (.fault f) → AnsweredAlike sink x y p q
  | fault_right (f : Fault) : q.1 = .error (.fault f) → AnsweredAlike sink x y p q

/-- Key and value are answered in the same way in whatever order their maps are, and what the sink
has taken of them may differ in that order. -/
theorem answer_upToOrder (hk : UpToOrder keySchema key key')
    (hv : UpToOrder valueSchema value value') (hkey : IsEncoding key) (hkey' : IsEncoding key')
    (hvalue : IsEncoding value) (hvalue' : IsEncoding value') (sink : Sink) :
    AnsweredAlike sink (layout key value) (layout key' value') (answer key value sink)
      (answer key' value' sink) := by
  have hp := (answer_ending hkey hvalue sink).accepted
  have hq := (answer_ending hkey' hvalue' sink).accepted
  cases alongside_answer hk hv sink with
  | fault_left f hf => exact .fault_left f hf
  | fault_right f hf => exact .fault_right f hf
  | answered hresult hcourse =>
    generalize sink.share (layout key value).length = n at hp
    generalize sink.share (layout key' value').length = m at hq
    have htaken : ((layout key' value').take m).length = ((layout key value).take n).length := by
      have hlength := hcourse.length
      rw [hp, hq, List.length_append, List.length_append] at hlength
      omega
    refine .answered ((layout key value).take n).length hresult hcourse ?_ ?_
    · rw [hp, List.length_take, ← List.take_eq_take_min]
    · rw [hq, ← htaken, List.length_take, ← List.take_eq_take_min]

end Serializer
end RecordTape
