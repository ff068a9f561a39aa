import Mathlib.Data.List.Forall2
import RecordTape.Proofs.Value.Primitive
/-!
# Reading parts back

What is written for the items of a collection or the fields of a record is the bytes of the parts
one after the other, and reading takes them apart again. The parts of a reading are pairs of the
bytes and what is read from them.
-/

namespace RecordTape

/-! ## Emissions without a stop -/

namespace Emission

theorem append_eq_done {a e : Emission} {b : Bytes} :
    a ++ e = done b ↔ ∃ x y, a = done x ∧ e = done y ∧ b = x ++ y := by
  obtain ⟨x, stop⟩ := a
  obtain ⟨y, stop'⟩ := e
  constructor
  · intro h
    cases stop with
    | some stop => cases h
    | none =>
      cases h
      exact ⟨x, y, rfl, rfl, rfl⟩
  · rintro ⟨x, y, ⟨⟩, ⟨⟩, rfl⟩
    rfl

theorem done_append_eq_done {a b : Bytes} {e : Emission} :
    done a ++ e = done b ↔ ∃ y, e = done y ∧ b = a ++ y := by
  rw [append_eq_done]
  constructor
  · rintro ⟨x, y, ⟨⟩, h, rfl⟩
    exact ⟨y, h, rfl⟩
  · rintro ⟨y, h, rfl⟩
    exact ⟨a, y, rfl, h, rfl⟩

theorem concat_map_eq_done {α : Type} {f : α → Emission} {xs : List α} {b : Bytes}
    (h : concat (xs.map f) = done b) :
    ∃ parts : List Bytes, b = parts.flatten ∧
      List.Forall₂ (fun x part => f x = done part) xs parts := by
  induction xs generalizing b with
  | nil =>
    cases h
    exact ⟨[], rfl, .nil⟩
  | cons x xs ih =>
    obtain ⟨part, rest, hpart, hrest, rfl⟩ := append_eq_done.mp h
    obtain ⟨parts, rfl, hparts⟩ := ih hrest
    exact ⟨part :: parts, rfl, .cons hpart hparts⟩

end Emission

/-! ## Parts -/

theorem forall₂_of_mem {α β : Type} {R S : α → β → Prop} {xs : List α} {ys : List β}
    (h : List.Forall₂ R xs ys) (hs : ∀ x ∈ xs, ∀ y ∈ ys, R x y → S x y) : List.Forall₂ S xs ys := by
  induction h with
  | nil => exact .nil
  | cons hxy _ ih =>
    refine .cons (hs _ List.mem_cons_self _ List.mem_cons_self hxy) (ih ?_)
    intro x hx y hy
    exact hs x (List.mem_cons_of_mem _ hx) y (List.mem_cons_of_mem _ hy)

/-- Pieces that can each be read come with what is read from them. -/
theorem exists_parts {α β γ : Type} {R : α → β → γ → Prop} {xs : List α} {bs : List β}
    (h : List.Forall₂ (fun x b => ∃ w, R x b w) xs bs) :
    ∃ parts : List (β × γ), parts.map (·.1) = bs ∧
      List.Forall₂ (fun x p => R x p.1 p.2) xs parts := by
  induction h with
  | nil => exact ⟨[], rfl, .nil⟩
  | @cons x b xs bs hw _ ih =>
    obtain ⟨w, hw⟩ := hw
    obtain ⟨parts, rfl, hparts⟩ := ih
    exact ⟨(b, w) :: parts, rfl, .cons hw hparts⟩

namespace Decoder

variable {α β : Type}

/-- Steps one after the other read the bytes of the parts one after the other. -/
theorem Reads.mapM {f : α → Decoder β} {xs : List α} {parts : List (Bytes × β)}
    (h : List.Forall₂ (fun x p => Reads (f x) p.1 p.2) xs parts) :
    Reads (xs.mapM f) (parts.map (·.1)).flatten (parts.map (·.2)) := by
  induction h with
  | nil => exact .pure []
  | cons hp _ ih =>
    rw [List.mapM_cons]
    exact hp.bind (ih.bind_end (.pure _))

theorem Reads.items {item : Decoder α} {parts : List (Bytes × α)}
    (h : ∀ p ∈ parts, Reads item p.1 p.2) (before : List α) :
    Reads (items item parts.length before) (parts.map (·.1)).flatten
      ((parts.map (·.2)).reverse ++ before) := by
  induction parts generalizing before with
  | nil => exact .pure before
  | cons p rest ih =>
    have hrest := ih (fun q hq => h q (List.mem_cons_of_mem _ hq)) (p.2 :: before)
    have hall := Reads.bind (f := fun a => Decoder.items item rest.length (a :: before))
      (h p List.mem_cons_self) hrest
    simpa [Decoder.items] using hall

theorem reads_blockCount {n : Nat} (h : n < Capacity.limit) :
    Reads (blockCount anyLength) (Varint.encode n) n := by
  refine (reads_natural h).bind_end ?_
  rw [if_neg (by omega)]
  exact reads_checkLength h

theorem reads_noBlock : Reads (blockCount anyLength) [0] 0 := by
  have h : Varint.encode ((0 : Nat) : Int) = [0] := by
    rw [Varint.encode, Varint.encodeNat]
    rfl
  exact h ▸ reads_blockCount (by decide)

/-- One block and the end of the blocks. A collection of none has the end alone. -/
theorem Reads.blocks {item : Decoder α} {parts : List (Bytes × α)}
    (h : ∀ p ∈ parts, Reads item p.1 p.2) (hlen : parts.length < Capacity.limit) (limit : Nat) :
    Reads (blocks anyLength item (limit + 2) [])
      (Value.blockStart parts.length ++ (parts.map (·.1)).flatten ++ [0])
      (parts.map (·.2)).reverse := by
  have hend : ∀ limit before, Reads (Decoder.blocks anyLength item (limit + 1) before) [0] before :=
    fun limit before => reads_noBlock.bind_end (.pure before)
  cases hparts : parts with
  | nil => exact hend (limit + 1) []
  | cons p rest =>
    rw [← hparts]
    have hpos : parts.length ≠ 0 := by simp [hparts]
    rw [Value.blockStart, if_neg hpos, List.append_assoc]
    refine (reads_blockCount hlen).bind ?_
    have hitems := Reads.items h []
    rw [List.append_nil] at hitems
    have hrest := hitems.bind (hend limit _)
    split
    · exact absurd ‹parts.length = 0› hpos
    · exact hrest

/-- A collection in one block is read back in order. -/
theorem Reads.collection {item : Decoder α} {parts : List (Bytes × α)}
    (h : ∀ p ∈ parts, Reads item p.1 p.2) (hlen : parts.length < Capacity.limit) :
    Reads (collection anyLength item)
      (Value.blockStart parts.length ++ (parts.map (·.1)).flatten ++ [0]) (parts.map (·.2)) := by
  intro rest
  generalize hb : Value.blockStart parts.length ++ (parts.map (·.1)).flatten ++ [0] = b
  have hpos : 1 ≤ b.length := by simp [← hb]; omega
  obtain ⟨limit, hlimit⟩ : ∃ limit, (b ++ rest).length + 1 = limit + 2 :=
    ⟨(b ++ rest).length - 1, by simp; omega⟩
  have hblocks := (Reads.blocks h hlen limit).map List.reverse rest
  rw [List.reverse_reverse, hb, ← hlimit] at hblocks
  exact hblocks

/-! ## Pieces of a value -/

section Pieces

variable {γ : Type} {R : α → β → Prop} {xs : List α} {pieces : List Bytes}

/-- Items that were written into one block are read back one by one. -/
theorem reads_block {item : Decoder β}
    (h : List.Forall₂ (fun x piece => ∃ w, R x w ∧ Reads item piece w) xs pieces)
    (hlen : xs.length < Capacity.limit) :
    ∃ ws, List.Forall₂ R xs ws ∧
      Reads (collection anyLength item)
        (Value.blockStart xs.length ++ pieces.flatten ++ [0]) ws := by
  obtain ⟨parts, rfl, hparts⟩ := exists_parts h
  have hcount : xs.length = parts.length := hparts.length_eq
  refine ⟨parts.map (·.2), ?_, ?_⟩
  · rw [List.forall₂_map_right_iff]
    exact hparts.imp fun x p hp => hp.1
  · rw [hcount]
    refine Reads.collection ?_ (hcount ▸ hlen)
    intro p hp
    obtain ⟨i, hi, rfl⟩ := List.mem_iff_getElem.mp hp
    exact (hparts.get (hcount ▸ hi) hi).2

/-- What was written step by step is read back step by step. -/
theorem reads_steps {f : α → Decoder β}
    (h : List.Forall₂ (fun x piece => ∃ w, R x w ∧ Reads (f x) piece w) xs pieces) :
    ∃ ws, List.Forall₂ R xs ws ∧ Reads (xs.mapM f) pieces.flatten ws := by
  obtain ⟨parts, rfl, hparts⟩ := exists_parts h
  refine ⟨parts.map (·.2), ?_, .mapM (hparts.imp fun x p hp => hp.2)⟩
  rw [List.forall₂_map_right_iff]
  exact hparts.imp fun x p hp => hp.1

end Pieces

end Decoder
end RecordTape
