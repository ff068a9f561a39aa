import RecordTape.Writer
/-!
# Frames in pieces

A frame is a header with a body behind it. The header is dropped by counting, so that it must not
matter where a frame is cut: inside the header, inside the body, or where nothing is in between.

`write_eq` says all that one piece does to a filter. What the pieces of a frame do together is the
same with the frame in place of the piece (`writeEach_eq`). So the body reaches the buffer and
nothing else does, every piece counts as accepted in full, the count of what is still to come never
falls below zero, and the sink is left alone (`writeEach_drops_header`).
-/

namespace RecordTape.HeaderFilter

/-- One piece: what is still to come of the header is dropped and the rest goes behind the buffer.
-/
theorem write_eq {σ : Type} (f : HeaderFilter σ) (piece : Bytes) :
    f.write piece = .ok (.accepted piece.length,
      ⟨f.skip - piece.length, f.binding.append (piece.drop f.skip)⟩) := by
  have hskip : f.skipAfter (min f.skip piece.length) = .ok (f.skip - piece.length) := by
    rw [skipAfter, if_pos (Nat.min_le_left _ _)]
    congr 1
    omega
  have hdrop : piece.drop (min f.skip piece.length) = piece.drop f.skip := by
    rcases Nat.le_total f.skip piece.length with hle | hle
    · rw [Nat.min_eq_left hle]
    · rw [Nat.min_eq_right hle, List.drop_eq_nil_of_le hle, List.drop_length]
  simp only [write, hskip, hdrop]
  rfl

/-- A header of the expected length is dropped and the rest goes behind the buffer. -/
theorem write_header {header : Bytes} (h : header.length = Fingerprint.headerLength) (b : Binding)
    (body : Bytes) :
    (HeaderFilter.mk Fingerprint.headerLength b).write (header ++ body) =
      .ok (.accepted (header ++ body).length, ⟨0, b.append body⟩) := by
  have hskip : Fingerprint.headerLength - (header ++ body).length = 0 := by
    rw [List.length_append, h]; omega
  have hdrop : (header ++ body).drop Fingerprint.headerLength = body := List.drop_left' h
  rw [write_eq, hskip, hdrop]

/-- Pieces written one after the other, with what each comes to. -/
def writeEach (f : HeaderFilter) : List Bytes → Except Fault (List WriteResult × HeaderFilter)
  | [] => return ([], f)
  | piece :: rest => do
    let (result, f) ← f.write piece
    let (results, f) ← f.writeEach rest
    return (result :: results, f)

/-- Pieces do to a filter what the frame does that they make up. -/
theorem writeEach_eq (f : HeaderFilter) (pieces : List Bytes) :
    f.writeEach pieces = .ok (pieces.map fun piece => .accepted piece.length,
      ⟨f.skip - pieces.flatten.length, f.binding.append (pieces.flatten.drop f.skip)⟩) := by
  induction pieces generalizing f with
  | nil =>
    rw [List.flatten_nil, List.drop_nil, Binding.append_nil]
    rfl
  | cons piece rest ih =>
    -- the rest meets the count that the piece has left, as the frame's second part does in `drop`
    have hskip : f.skip - piece.length - rest.flatten.length =
        f.skip - (piece ++ rest.flatten).length := by
      rw [List.length_append, Nat.sub_add_eq]
    have hdrop : (piece ++ rest.flatten).drop f.skip =
        piece.drop f.skip ++ rest.flatten.drop (f.skip - piece.length) := List.drop_append
    simp only [writeEach, write_eq, ih, bind, Except.bind, hskip, Binding.append_append, ← hdrop,
      List.flatten_cons, List.map_cons]
    rfl

/-- However a frame is cut into pieces, what they add to the buffer is the frame without its header,
which is nothing where the frame is no longer than a header. Every piece is accepted in full, no
more of the header is taken off than is to come, and the sink is not called even if the buffer holds
its size: any sink is as before, also one that would have counted a call. -/
theorem writeEach_drops_header (b : Binding) (pieces : List Bytes) :
    ∃ f, (HeaderFilter.mk Fingerprint.headerLength b).writeEach pieces =
        .ok (pieces.map fun piece => .accepted piece.length, f) ∧
      f.skip = Fingerprint.headerLength - pieces.flatten.length ∧
      f.binding.encoder.buffer =
        b.encoder.buffer ++ pieces.flatten.drop Fingerprint.headerLength ∧
      f.binding.encoder.size = b.encoder.size ∧
      f.binding.sink = b.sink :=
  ⟨_, writeEach_eq _ pieces, rfl, rfl, rfl, rfl⟩

/-- The header is cut three times, once with nothing in between, and the body once; the buffer grows
to twice its size. -/
example :
    let b := (Encoder.ofSize 1).bind Sink.memory
    (HeaderFilter.mk Fingerprint.headerLength b).writeEach
        [[0xC3], [], [1, 2, 3, 4, 5, 6, 7, 8], [9, 0x78], [0x7A]] =
      .ok ([.accepted 1, .accepted 0, .accepted 8, .accepted 2, .accepted 1],
        ⟨0, b.append [0x78, 0x7A]⟩) := rfl

end RecordTape.HeaderFilter
