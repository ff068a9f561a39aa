import Mathlib.Data.List.Induction
import Mathlib.Logic.Function.Basic
import RecordTape.Encoder
import RecordTape.Proofs.Sink.Delivery
/-!
# The buffered encoder

What sinks gain through an encoder, over every sequence of writes and flushes and however often the
encoder is bound anew.

`Answered` says once what a request does to a binding: its bytes are held back, or all that waits is
drained, or the drain fails and all that waits is kept. A drain fails because the sink takes nothing
more for good (`Sink.Spent`). So the part that a failed drain has handed over is never followed by
anything, and though the buffer still holds that part, no later drain can hand it over twice.

`Delivers` is the contract of one binding, `Desk` an encoder with the sinks it is bound to in turn.
-/

namespace RecordTape

namespace Sink

/-- The sink takes nothing any more. -/
def Spent (s : Sink) : Prop := ∀ n, s.share n = 0

/-- The share is a matter of the limit, the chunk and the number of bytes accepted. -/
theorem share_congr {s s' : Sink} (hlimit : s'.limit = s.limit) (hchunk : s'.chunk = s.chunk)
    (haccepted : s'.accepted.length = s.accepted.length) (n : Nat) : s'.share n = s.share n := by
  unfold share
  rw [hlimit, hchunk, haccepted]

/-- A sink that has not taken everything takes nothing more. -/
theorem spent_of_share_lt {s s' : Sink} {n : Nat} (hlimit : s'.limit = s.limit)
    (hchunk : s'.chunk = s.chunk) (haccepted : s'.accepted.length = s.accepted.length + s.share n)
    (h : s.share n < n) : s'.Spent := by
  intro m
  unfold share at *
  rw [hlimit, hchunk]
  by_cases hzero : s.chunk = some 0
  · rw [if_pos hzero]
  · rw [if_neg hzero] at h haccepted ⊢
    cases hl : s.limit with
    | none => simp only [hl] at h; omega
    | some limit => simp only [hl] at h haccepted ⊢; omega

/-- A sink that refuses a part of what is written to it is spent. -/
theorem spent_of_writeAll_error {s : Sink} {data : Bytes} {e : IoError}
    (h : (ByteSink.writeAll s data).1 = .error e) : (ByteSink.writeAll s data).2.Spent := by
  obtain ⟨haccepted, hterms, hall⟩ := s.writeAll_spec data
  have hle := s.share_le data.length
  have hlt : s.share data.length < data.length := by
    have hne : s.share data.length ≠ data.length := fun heq => by
      rw [hall.mpr heq] at h; cases h
    omega
  refine spent_of_share_lt hterms.limit hterms.chunk ?_ hlt
  rw [haccepted, List.length_append, List.length_take, Nat.min_eq_left hle]

/-- A spent sink gains nothing and stays spent. -/
theorem Spent.writeAll {s : Sink} (h : s.Spent) (data : Bytes) :
    (ByteSink.writeAll s data).2.accepted = s.accepted ∧ (ByteSink.writeAll s data).2.Spent := by
  obtain ⟨haccepted, hterms, -⟩ := s.writeAll_spec data
  rw [h, List.take_zero, List.append_nil] at haccepted
  refine ⟨haccepted, fun n => ?_⟩
  rw [share_congr hterms.limit hterms.chunk (by rw [haccepted])]
  exact h n

end Sink

/-- What is asked of a bound encoder. -/
inductive Request where
  | write (data : Bytes)
  | flush

namespace Request

def data : Request → Bytes
  | write data => data
  | flush => []

/-- All bytes that are written, one request after the other. -/
def written (requests : List Request) : Bytes := requests.flatMap data

theorem written_cons (r : Request) (rest : List Request) :
    written (r :: rest) = r.data ++ written rest := by
  rw [written, List.flatMap_cons, written]

theorem written_append (front back : List Request) :
    written (front ++ back) = written front ++ written back := by
  rw [written, List.flatMap_append, written, written]

theorem written_singleton (r : Request) : written [r] = r.data := by
  rw [written_cons, written, List.flatMap_nil, List.append_nil]

end Request

namespace Binding

open Request

/-- The binding answers a request. -/
def answer (b : Binding) : Request → Except IoError Unit × Binding
  | .write data => b.write data
  | .flush => b.flush

/-- What the drain comes to that a request makes; none if it makes none. A write makes one if the
buffer holds its size then, a flush always does. -/
def drainOf (b : Binding) : Request → Option (Except IoError Unit)
  | .write data =>
    if b.encoder.size ≤ (b.append data).buffered then some (b.append data).drain.1 else none
  | .flush => some b.drain.1

/-- The binding after requests, whatever became of each. -/
def after (b : Binding) : List Request → Binding
  | [] => b
  | r :: rest => (b.answer r).2.after rest

def drains (b : Binding) : List Request → List (Option (Except IoError Unit))
  | [] => []
  | r :: rest => b.drainOf r :: (b.answer r).2.drains rest

theorem after_append (b : Binding) (front back : List Request) :
    b.after (front ++ back) = (b.after front).after back := by
  induction front generalizing b with
  | nil => rfl
  | cons r rest ih => exact ih (b.answer r).2

theorem drains_append (b : Binding) (front back : List Request) :
    b.drains (front ++ back) = b.drains front ++ (b.after front).drains back := by
  induction front generalizing b with
  | nil => rfl
  | cons r rest ih => exact congrArg (b.drainOf r :: ·) (ih (b.answer r).2)

/-! ## One request -/

/-- What a drain does: it hands over everything and leaves the buffer empty, or it hands over a
part, keeps everything, and the sink is spent. -/
theorem drain_cases (b : Binding) :
    (∃ sink, b.drain = (.ok (), ⟨{ b.encoder with buffer := [] }, sink⟩) ∧
      sink.accepted = b.sink.accepted ++ b.encoder.buffer) ∨
    (∃ e part sink, b.drain = (.error e, ⟨b.encoder, sink⟩) ∧ part <+: b.encoder.buffer ∧
      sink.accepted = b.sink.accepted ++ part ∧ sink.Spent) := by
  obtain ⟨haccepted, -, hall⟩ := b.sink.writeAll_spec b.encoder.buffer
  have hspent := @Sink.spent_of_writeAll_error b.sink b.encoder.buffer
  unfold drain
  rcases hwrite : ByteSink.writeAll b.sink b.encoder.buffer with ⟨e | ⟨⟩, sink⟩
  · rw [hwrite] at haccepted hspent
    exact .inr ⟨e, _, sink, rfl, List.take_prefix _ _, haccepted, hspent rfl⟩
  · rw [hwrite] at haccepted hall
    rw [hall.mp rfl, List.take_length] at haccepted
    exact .inl ⟨sink, rfl, haccepted⟩

/-- What a request does to a binding. -/
inductive Answered (b : Binding) (r : Request) : Prop
  /-- The bytes are held back. -/
  | held (drain : b.drainOf r = none) (below : (b.append r.data).buffered < b.encoder.size)
      (after : (b.answer r).2 = b.append r.data)
  /-- All that waits is handed over. -/
  | drained (drain : b.drainOf r = some (.ok ()))
      (encoder : (b.answer r).2.encoder = { b.encoder with buffer := [] })
      (accepted : (b.answer r).2.sink.accepted =
        b.sink.accepted ++ (b.encoder.buffer ++ r.data))
  /-- A part is handed over, all is kept, and nothing more can be handed over. -/
  | stuck (e : IoError) (part : Bytes) (drain : b.drainOf r = some (.error e))
      (result : (b.answer r).1 = .error e)
      (encoder : (b.answer r).2.encoder = (b.append r.data).encoder)
      (handed : part <+: b.encoder.buffer ++ r.data)
      (accepted : (b.answer r).2.sink.accepted = b.sink.accepted ++ part)
      (spent : (b.answer r).2.sink.Spent)

theorem answered_write (b : Binding) (data : Bytes) : b.Answered (.write data) := by
  have hanswer : b.answer (.write data) = (b.append data).drainIfFull := rfl
  by_cases hfull : b.encoder.size ≤ (b.append data).buffered
  · have hdrain : b.drainOf (.write data) = some (b.append data).drain.1 := if_pos hfull
    have hstep : b.answer (.write data) = (b.append data).drain := by
      rw [hanswer, drainIfFull]; exact if_pos hfull
    rcases (b.append data).drain_cases with
      ⟨sink, heq, haccepted⟩ | ⟨e, part, sink, heq, hpart, haccepted, hspent⟩ <;>
      rw [heq] at hdrain hstep
    · exact .drained hdrain (by rw [hstep]; rfl) (by rw [hstep]; exact haccepted)
    · exact .stuck e part hdrain (by rw [hstep]) (by rw [hstep]; rfl) hpart
        (by rw [hstep]; exact haccepted) (by rw [hstep]; exact hspent)
  · refine .held (if_neg hfull) (Nat.lt_of_not_le hfull) ?_
    rw [hanswer, drainIfFull]
    exact congrArg Prod.snd (if_neg hfull)

theorem answered_flush (b : Binding) : b.Answered .flush := by
  have hanswer : b.answer .flush = b.flush := rfl
  have hdrain : b.drainOf .flush = some b.drain.1 := rfl
  rcases b.drain_cases with
    ⟨sink, heq, haccepted⟩ | ⟨e, part, sink, heq, hpart, haccepted, hspent⟩ <;>
    rw [heq] at hdrain <;> rw [flush, heq] at hanswer
  · -- the flush of the sink may fail, but has no part in what was drained
    refine .drained hdrain (by rw [hanswer]) ?_
    rw [hanswer, Request.data, List.append_nil, ← haccepted]
    exact sink.accepted_flush
  · refine .stuck e part hdrain (by rw [hanswer]) ?_ ?_ (by rw [hanswer]; exact haccepted)
      (by rw [hanswer]; exact hspent)
    · rw [hanswer, Request.data, append_nil]
    · rw [Request.data, List.append_nil]; exact hpart

/-- The step lemma: one request. -/
theorem answered (b : Binding) (r : Request) : b.Answered r := by
  cases r with
  | write data => exact b.answered_write data
  | flush => exact b.answered_flush

theorem size_answer (b : Binding) (r : Request) :
    (b.answer r).2.encoder.size = b.encoder.size := by
  cases b.answered r with
  | held _ _ h => rw [h]; rfl
  | drained _ h _ => rw [h]
  | stuck _ _ _ _ h _ _ _ => rw [h]; rfl

/-- A drain that succeeds has emptied the buffer. -/
theorem buffer_of_drained {b : Binding} {r : Request} (h : b.drainOf r = some (.ok ())) :
    (b.answer r).2.encoder.buffer = [] := by
  cases b.answered r with
  | held hd _ _ => rw [hd] at h; cases h
  | drained _ he _ => rw [he]
  | stuck _ _ hd _ _ _ _ _ => rw [hd] at h; cases h

/-- Without a drain that succeeds the bytes are added to the buffer. -/
theorem buffer_of_not_drained {b : Binding} {r : Request} (h : b.drainOf r ≠ some (.ok ())) :
    (b.answer r).2.encoder.buffer = b.encoder.buffer ++ r.data := by
  cases b.answered r with
  | held _ _ ha => rw [ha]; rfl
  | drained hd _ _ => exact absurd hd h
  | stuck _ _ _ _ he _ _ _ => rw [he]; rfl

/-- A request that succeeds leaves less than the size of the buffer. -/
theorem buffered_of_ok {b : Binding} {r : Request} (h : (b.answer r).1 = .ok ()) :
    (b.answer r).2.buffered < b.encoder.size := by
  cases b.answered r with
  | held _ hlt ha => rw [ha]; exact hlt
  | drained _ he _ => rw [buffered, he]; exact b.encoder.size_pos
  | stuck _ _ _ hr _ _ _ _ => rw [hr] at h; cases h

/-- A flush that succeeds leaves nothing. -/
theorem buffered_of_flush {b : Binding} (h : b.flush.1 = .ok ()) : b.flush.2.buffered = 0 := by
  cases b.answered .flush with
  | held hd _ _ => cases hd
  | drained _ he _ => exact congrArg (fun e : Encoder => e.buffer.length) he
  | stuck _ _ _ hr _ _ _ _ => rw [show b.flush.1 = _ from hr] at h; cases h

/-- A sink that is spent gains nothing by any request. -/
theorem answer_of_spent {b : Binding} (h : b.sink.Spent) (r : Request) :
    (b.answer r).2.sink.accepted = b.sink.accepted ∧ (b.answer r).2.sink.Spent := by
  have hdrain (b : Binding) (h : b.sink.Spent) :
      b.drain.2.sink.accepted = b.sink.accepted ∧ b.drain.2.sink.Spent := by
    have hwrite := h.writeAll b.encoder.buffer
    unfold drain
    rcases heq : ByteSink.writeAll b.sink b.encoder.buffer with ⟨_ | _, sink⟩ <;>
      rw [heq] at hwrite <;> exact hwrite
  cases r with
  | write data =>
    rw [answer, write, drainIfFull]
    split
    · exact hdrain (b.append data) h
    · exact ⟨rfl, h⟩
  | flush =>
    obtain ⟨haccepted, hspent⟩ := hdrain b h
    rw [answer, flush]
    rcases heq : b.drain with ⟨_ | _, b'⟩ <;> rw [heq] at haccepted hspent
    · exact ⟨haccepted, hspent⟩
    · have hflush : b'.sink.flush.2.accepted = b'.sink.accepted ∧
          b'.sink.flush.2.limit = b'.sink.limit ∧ b'.sink.flush.2.chunk = b'.sink.chunk := by
        unfold Sink.flush
        cases b'.sink.flushFailure <;> exact ⟨rfl, rfl, rfl⟩
      refine ⟨hflush.1.trans haccepted, fun n => ?_⟩
      exact (Sink.share_congr hflush.2.1 hflush.2.2 (by rw [hflush.1]) n).trans (hspent n)

/-! ## One binding -/

theorem size_after (b : Binding) (requests : List Request) :
    (b.after requests).encoder.size = b.encoder.size := by
  induction requests generalizing b with
  | nil => rfl
  | cons r rest ih => exact (ih (b.answer r).2).trans (b.size_answer r)

theorem after_of_spent {b : Binding} (h : b.sink.Spent) (requests : List Request) :
    (b.after requests).sink.accepted = b.sink.accepted := by
  induction requests generalizing b with
  | nil => rfl
  | cons r rest ih =>
    obtain ⟨haccepted, hspent⟩ := answer_of_spent h r
    exact (ih hspent).trans haccepted

/-- The run lemma: what the sink gains is a prefix of what waited and what was written, and while no
drain fails the buffer holds the rest of it. -/
theorem gained_after (b : Binding) (requests : List Request) :
    ∃ gained, (b.after requests).sink.accepted = b.sink.accepted ++ gained ∧
      gained <+: b.encoder.buffer ++ written requests ∧
      ((∀ e, some (.error e) ∉ b.drains requests) →
        gained ++ (b.after requests).encoder.buffer = b.encoder.buffer ++ written requests) := by
  induction requests generalizing b with
  | nil =>
    refine ⟨[], ?_, List.nil_prefix, fun _ => ?_⟩
    · exact (List.append_nil _).symm
    · exact (List.append_nil _).symm
  | cons r rest ih =>
    have hsplit : b.encoder.buffer ++ written (r :: rest) =
        (b.encoder.buffer ++ r.data) ++ written rest := by
      rw [written_cons, List.append_assoc]
    have hlater : (∀ e, some (.error e) ∉ b.drains (r :: rest)) →
        ∀ e, some (.error e) ∉ (b.answer r).2.drains rest :=
      fun hnone e hmem => hnone e (List.mem_cons_of_mem _ hmem)
    obtain ⟨gained, haccepted, hprefix, hall⟩ := ih (b.answer r).2
    rw [hsplit]
    cases b.answered r with
    | held _ _ ha =>
      rw [ha] at haccepted hprefix hall hlater
      refine ⟨gained, ?_, hprefix, fun hnone => ?_⟩
      · rw [after, ha]; exact haccepted
      · rw [after, ha]; exact hall (hlater hnone)
    | drained _ he hd =>
      rw [he, List.nil_append] at hprefix hall
      refine ⟨(b.encoder.buffer ++ r.data) ++ gained, ?_, ?_, fun hnone => ?_⟩
      · rw [after, haccepted, hd, List.append_assoc]
      · exact (List.prefix_append_right_inj _).mpr hprefix
      · rw [after, List.append_assoc, hall (hlater hnone)]
    | stuck e part hdrain _ _ hpart hd hspent =>
      refine ⟨part, ?_, hpart.trans (List.prefix_append _ _), fun hnone => ?_⟩
      · rw [after, after_of_spent hspent, hd]
      · exact absurd (hdrain ▸ List.mem_cons_self) (hnone e)

/-- The requests `back` come after the last drain that has succeeded: the requests `front` before
them end with it, or there is none. -/
structure SinceDrain (b : Binding) (front back : List Request) : Prop where
  before : front = [] ∨ (b.drains front).getLast? = some (some (.ok ()))
  none : some (.ok ()) ∉ (b.after front).drains back

/-- The buffer holds what was written after the last drain that has succeeded. -/
theorem buffer_after {b : Binding} (h : b.encoder.buffer = []) (requests : List Request) :
    ∃ front back, requests = front ++ back ∧ b.SinceDrain front back ∧
      (b.after requests).encoder.buffer = written back := by
  induction requests using List.reverseRecOn with
  | nil => exact ⟨[], [], rfl, ⟨.inl rfl, List.not_mem_nil⟩, h⟩
  | append_singleton requests r ih =>
    obtain ⟨front, back, rfl, hsince, hbuffer⟩ := ih
    have hlast : b.after (front ++ back ++ [r]) = ((b.after (front ++ back)).answer r).2 := by
      rw [after_append]; rfl
    have hdrains : b.drains (front ++ back ++ [r]) =
        b.drains (front ++ back) ++ [(b.after (front ++ back)).drainOf r] := by
      rw [drains_append]; rfl
    by_cases hd : (b.after (front ++ back)).drainOf r = some (.ok ())
    · refine ⟨front ++ back ++ [r], [], (List.append_nil _).symm, ⟨.inr ?_, List.not_mem_nil⟩, ?_⟩
      · rw [hdrains, hd, List.getLast?_concat]
      · rw [hlast, buffer_of_drained hd]; rfl
    · refine ⟨front, back ++ [r], List.append_assoc _ _ _, ⟨hsince.before, ?_⟩, ?_⟩
      · rw [drains_append, ← after_append, List.mem_append, not_or]
        exact ⟨hsince.none, fun hmem => hd (List.mem_singleton.mp hmem).symm⟩
      · rw [hlast, buffer_of_not_drained hd, hbuffer, written_append, written_singleton]

/-- The contract of a binding, for a list of requests in whatever way each of them ends. -/
structure Delivers (b : Binding) (requests : List Request) : Prop where
  /-- The sink gains a prefix of what is written; while no drain fails the buffer holds the rest. -/
  gained : ∃ gained, (b.after requests).sink.accepted = b.sink.accepted ++ gained ∧
    gained <+: written requests ∧
    ((∀ e, some (.error e) ∉ b.drains requests) →
      gained ++ (b.after requests).encoder.buffer = written requests)
  /-- A write that succeeds leaves less in the buffer than its size. -/
  below : ∀ data, ((b.after requests).write data).1 = .ok () →
    ((b.after requests).write data).2.buffered < b.encoder.size
  /-- A flush that succeeds leaves nothing in the buffer. -/
  flushed : (b.after requests).flush.1 = .ok () → (b.after requests).flush.2.buffered = 0
  /-- A drain that fails leaves in the buffer all that was written since the last that succeeded. -/
  kept : ∀ r e, (b.after requests).drainOf r = some (.error e) →
    ∃ front back, requests = front ++ back ∧ b.SinceDrain front back ∧
      ((b.after requests).answer r).2.encoder.buffer = written (back ++ [r])

theorem delivers {b : Binding} (h : b.encoder.buffer = []) (requests : List Request) :
    b.Delivers requests where
  gained := by
    have hrun := b.gained_after requests
    rw [h] at hrun
    exact hrun
  below data hok := by
    have hlt := buffered_of_ok (r := .write data) hok
    rw [size_after] at hlt
    exact hlt
  flushed := buffered_of_flush
  kept r e hfail := by
    obtain ⟨front, back, hsplit, hsince, hbuffer⟩ := buffer_after h requests
    refine ⟨front, back, hsplit, hsince, ?_⟩
    rw [buffer_of_not_drained (by rw [hfail]; exact fun heq => nomatch heq), hbuffer,
      written_append, written_singleton]

end Binding

/-! ## One encoder and many sinks -/

structure Desk (ι : Type) where
  encoder : Encoder
  sinks : ι → Sink

/-- A binding to one of the sinks, and what is asked of it. -/
structure Session (ι : Type) where
  sink : ι
  requests : List Request

namespace Desk

variable {ι : Type}

def bound (d : Desk ι) (i : ι) : Binding := d.encoder.bind (d.sinks i)

/-- The sinks before the first session, with an encoder of a size. -/
def start (size : Nat) (sinks : ι → Sink) : Desk ι := ⟨.ofSize size, sinks⟩

variable [DecidableEq ι]

def serve (d : Desk ι) (s : Session ι) : Desk ι :=
  let b := (d.bound s.sink).after s.requests
  ⟨b.encoder, Function.update d.sinks s.sink b.sink⟩

def serveAll (d : Desk ι) (sessions : List (Session ι)) : Desk ι := sessions.foldl serve d

theorem sinks_serve_self (d : Desk ι) (s : Session ι) :
    (d.serve s).sinks s.sink = ((d.bound s.sink).after s.requests).sink :=
  Function.update_self _ _ _

theorem sinks_serve_of_ne (d : Desk ι) {s : Session ι} {i : ι} (h : i ≠ s.sink) :
    (d.serve s).sinks i = d.sinks i :=
  Function.update_of_ne h _ _

theorem size_serveAll (d : Desk ι) (sessions : List (Session ι)) :
    (d.serveAll sessions).encoder.size = d.encoder.size := by
  induction sessions generalizing d with
  | nil => rfl
  | cons s rest ih => exact (ih (d.serve s)).trans (Binding.size_after _ _)

/-- A sink holds what its own sessions handed over, and of each of these a prefix of what was
written in it. -/
theorem accepted_serveAll (d : Desk ι) (sessions : List (Session ι)) (i : ι) :
    ∃ pieces, List.Forall₂ (fun piece s => piece <+: Request.written s.requests) pieces
        (sessions.filter (·.sink = i)) ∧
      ((d.serveAll sessions).sinks i).accepted = (d.sinks i).accepted ++ pieces.flatten := by
  induction sessions generalizing d with
  | nil => exact ⟨[], .nil, (List.append_nil _).symm⟩
  | cons s rest ih =>
    obtain ⟨pieces, hpieces, haccepted⟩ := ih (d.serve s)
    obtain ⟨gained, hgained, hprefix, -⟩ := (d.bound s.sink).gained_after s.requests
    by_cases hi : s.sink = i
    · subst hi
      have hfirst : ((d.serve s).sinks s.sink).accepted = (d.sinks s.sink).accepted ++ gained := by
        rw [sinks_serve_self]
        exact hgained
      refine ⟨gained :: pieces, ?_, ?_⟩
      · rw [List.filter_cons_of_pos (by simp)]
        exact .cons hprefix hpieces
      · rw [List.flatten_cons, ← List.append_assoc, ← hfirst]
        exact haccepted
    · have hfirst : (d.serve s).sinks i = d.sinks i := d.sinks_serve_of_ne (Ne.symm hi)
      refine ⟨pieces, ?_, ?_⟩
      · rw [List.filter_cons_of_neg (by simpa using hi)]
        exact hpieces
      · rw [← hfirst]
        exact haccepted

/-- Whatever sessions came before, each binding of an encoder delivers in order, loses nothing and
leaks nothing, and a sink holds nothing but prefixes of what its sessions wrote, in order. -/
theorem delivers_in_order (size : Nat) (sinks : ι → Sink) (earlier : List (Session ι))
    (current : Session ι) :
    let desk := (start size sinks).serveAll earlier
    (desk.bound current.sink).Delivers current.requests ∧
      (desk.bound current.sink).encoder.size = max size 1 ∧
      ∀ i, ∃ pieces,
        List.Forall₂ (fun piece (s : Session ι) => piece <+: Request.written s.requests) pieces
          ((earlier ++ [current]).filter (·.sink = i)) ∧
        ((desk.serve current).sinks i).accepted = (sinks i).accepted ++ pieces.flatten := by
  intro desk
  refine ⟨Binding.delivers rfl current.requests, size_serveAll _ earlier, fun i => ?_⟩
  have hall := (start size sinks).accepted_serveAll (earlier ++ [current]) i
  rw [serveAll, List.foldl_append] at hall
  exact hall

end Desk
end RecordTape
