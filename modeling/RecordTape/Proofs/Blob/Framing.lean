import Mathlib.Algebra.Group.Nat.Defs
import Mathlib.Data.List.Basic
import RecordTape.CommandLine.Run
/-!
# Frames read back

A reader of framed blobs takes four bytes as a length, then that many bytes as a blob, and so on to
the end (`Splits`). It has nothing but the lengths to go by, and four bytes hold a length below
`2 ^ 32` only. So the frames of a list of blobs are read back as that list if and only if all blobs
are shorter than that (`unframe_writeBlob_iff`). Of a longer one the length is written modulo
`2 ^ 32`, and the reader goes on in the middle of it (`unframe_writeBlob_zeros`).
-/

namespace RecordTape

namespace Bytes

theorem ofLittleEndian_lt (b : Bytes) : ofLittleEndian b < 256 ^ b.length := by
  induction b with
  | nil => simp [ofLittleEndian]
  | cons x b ih =>
    have hx := x.toNat_lt
    rw [ofLittleEndian, List.length_cons, Nat.pow_succ]
    omega

theorem ofBigEndian_lt (b : Bytes) : ofBigEndian b < 256 ^ b.length := by
  have h := ofLittleEndian_lt b.reverse
  rwa [List.length_reverse] at h

end Bytes

namespace Blob

/-- Blobs of this length or more have no frame of their own. -/
def lengthBound : Nat := 0x100000000

/-- The bytes come apart into the blobs: the length of the first one in four bytes, the blob itself,
and then the others. -/
inductive Splits : Bytes → List Bytes → Prop
  | nil : Splits [] []
  | cons {header blob rest : Bytes} {blobs : List Bytes} : header.length = lengthBytes →
    Bytes.ofBigEndian header = blob.length → Splits rest blobs →
    Splits (header ++ (blob ++ rest)) (blob :: blobs)

/-! ## The reader -/

theorem unframe?_eq_some {b blob rest : Bytes} :
    unframe? b = some (blob, rest) ↔ ∃ header : Bytes, header.length = lengthBytes ∧
      Bytes.ofBigEndian header = blob.length ∧ b = header ++ (blob ++ rest) := by
  simp only [unframe?, Option.ite_none_right_eq_some, Option.some.injEq, Prod.mk.injEq]
  constructor
  · rintro ⟨⟨hheader, hblob⟩, rfl, rfl⟩
    refine ⟨b.take lengthBytes, ?_, ?_, ?_⟩
    · rw [List.length_take, Nat.min_eq_left hheader]
    · rw [List.length_take, Nat.min_eq_left hblob]
    · rw [List.take_append_drop, List.take_append_drop]
  · rintro ⟨header, hheader, hblob, rfl⟩
    have htake : (header ++ (blob ++ rest)).take lengthBytes = header := by
      rw [← hheader, List.take_left]
    have hdrop : (header ++ (blob ++ rest)).drop lengthBytes = blob ++ rest := by
      rw [← hheader, List.drop_left]
    rw [htake, hdrop, hblob]
    simp [hheader]

/-- Without bytes there are no blobs. -/
theorem splits_nil {blobs : List Bytes} : Splits [] blobs ↔ blobs = [] := by
  constructor
  · intro h
    generalize hb : ([] : Bytes) = b at h
    cases h with
    | nil => rfl
    | cons hheader _ _ =>
      have hempty := (List.append_eq_nil_iff.mp hb.symm).1
      rw [hempty] at hheader
      cases hheader
  · rintro rfl
    exact .nil

/-- With bytes the first blob is taken, and then the others. -/
theorem splits_of_ne_nil {b : Bytes} {blobs : List Bytes} (hb : b ≠ []) :
    Splits b blobs ↔ ∃ blob rest others, unframe? b = some (blob, rest) ∧ Splits rest others ∧
      blobs = blob :: others := by
  constructor
  · rintro (_ | ⟨hheader, hlength, hrest⟩)
    · exact absurd rfl hb
    · exact ⟨_, _, _, unframe?_eq_some.mpr ⟨_, hheader, hlength, rfl⟩, hrest, rfl⟩
  · rintro ⟨blob, rest, others, hfirst, hrest, rfl⟩
    obtain ⟨header, hheader, hlength, rfl⟩ := unframe?_eq_some.mp hfirst
    exact .cons hheader hlength hrest

theorem unframeUpTo_of_ne_nil {limit : Nat} {b : Bytes} (hb : b ≠ []) :
    unframeUpTo (limit + 1) b =
      (unframe? b).bind fun p => (unframeUpTo limit p.2).map (p.1 :: ·) := by
  rw [unframeUpTo]
  · cases unframe? b with
    | none => rfl
    | some p => cases hrest : unframeUpTo limit p.2 <;> simp [hrest]
  · exact hb

/-- The limit on the number of blobs is never met, since each takes up a byte at least. -/
theorem unframeUpTo_eq_some {limit : Nat} {b : Bytes} {blobs : List Bytes} (h : b.length ≤ limit) :
    unframeUpTo limit b = some blobs ↔ Splits b blobs := by
  induction limit generalizing b blobs with
  | zero =>
    obtain rfl := List.length_eq_zero_iff.mp (Nat.le_zero.mp h)
    rw [splits_nil, unframeUpTo, Option.some.injEq, eq_comm]
  | succ limit ih =>
    by_cases hb : b = []
    · subst hb
      rw [splits_nil, unframeUpTo, Option.some.injEq, eq_comm]
    · have hshorter : ∀ {blob rest}, unframe? b = some (blob, rest) → rest.length ≤ limit := by
        intro blob rest hfirst
        obtain ⟨header, hheader, -, rfl⟩ := unframe?_eq_some.mp hfirst
        simp only [List.length_append, hheader, lengthBytes] at h
        omega
      rw [splits_of_ne_nil hb, unframeUpTo_of_ne_nil hb]
      simp only [Option.bind_eq_some_iff, Option.map_eq_some_iff, Prod.exists]
      constructor
      · rintro ⟨blob, rest, hfirst, others, hrest, rfl⟩
        exact ⟨blob, rest, others, hfirst, (ih (hshorter hfirst)).mp hrest, rfl⟩
      · rintro ⟨blob, rest, others, hfirst, hrest, rfl⟩
        exact ⟨blob, rest, hfirst, others, (ih (hshorter hfirst)).mpr hrest, rfl⟩

/-- Reading takes the bytes apart, with nothing left over. -/
theorem unframe_eq_some {b : Bytes} {blobs : List Bytes} :
    unframe b = some blobs ↔ Splits b blobs :=
  unframeUpTo_eq_some (Nat.le_refl _)

/-! ## The frames of a list -/

/-- A length is read as it was written if four bytes hold it. -/
theorem ofBigEndian_frame {blob : Bytes} (h : blob.length < lengthBound) :
    Bytes.ofBigEndian (Bytes.bigEndian lengthBytes blob.length) = blob.length := by
  rw [Bytes.ofBigEndian_bigEndian]
  exact Nat.mod_eq_of_lt h

/-- What is read has a length that four bytes hold. -/
theorem Splits.length_lt {b : Bytes} {blobs : List Bytes} (h : Splits b blobs) :
    ∀ blob ∈ blobs, blob.length < lengthBound := by
  induction h with
  | nil => intro blob hblob; cases hblob
  | @cons header first rest blobs hheader hlength _ ih =>
    intro blob hblob
    rcases List.mem_cons.mp hblob with rfl | hblob
    · have hlt := Bytes.ofBigEndian_lt header
      rwa [hheader, hlength] at hlt
    · exact ih blob hblob

theorem splits_frames {blobs : List Bytes} (h : ∀ blob ∈ blobs, blob.length < lengthBound) :
    Splits (blobs.flatMap frame) blobs := by
  induction blobs with
  | nil => exact .nil
  | cons blob blobs ih =>
    have hfirst := ofBigEndian_frame (h blob List.mem_cons_self)
    have hrest := ih fun blob hblob => h blob (List.mem_cons_of_mem _ hblob)
    rw [List.flatMap_cons, frame, List.append_assoc]
    exact .cons (Bytes.length_bigEndian _ _) hfirst hrest

/-- The frames of blobs are read back as these blobs if and only if each blob is shorter than the
bound of lengths. -/
theorem unframe_writeBlob_iff (blobs : List Bytes) :
    unframe (blobs.flatMap (CommandLine.writeBlob false)) = some blobs ↔
      ∀ blob ∈ blobs, blob.length < lengthBound := by
  have hframes : blobs.flatMap (CommandLine.writeBlob false) = blobs.flatMap frame := rfl
  rw [hframes, unframe_eq_some]
  exact ⟨Splits.length_lt, splits_frames⟩

/-! ## Longer blobs -/

theorem splits_replicate_zero (n : Nat) :
    Splits (List.replicate (lengthBytes * n) 0) (List.replicate n []) := by
  induction n with
  | zero => exact .nil
  | succ n ih =>
    have hzeros : List.replicate (lengthBytes * (n + 1)) (0 : UInt8) =
        List.replicate lengthBytes 0 ++ ([] ++ List.replicate (lengthBytes * n) 0) := by
      rw [List.nil_append, List.replicate_append_replicate, Nat.mul_add, Nat.mul_one, Nat.add_comm]
    rw [hzeros, List.replicate_succ]
    exact .cons List.length_replicate rfl ih

/-- The length of `2 ^ 32` bytes is written as zero, and if they are zeros they are read as so many
empty blobs. -/
theorem unframe_writeBlob_zeros :
    let blob : Bytes := List.replicate lengthBound 0
    unframe ([blob].flatMap (CommandLine.writeBlob false)) = some (List.replicate 0x40000001 []) ∧
      List.replicate 0x40000001 [] ≠ [blob] := by
  intro blob
  have hlength : Bytes.bigEndian lengthBytes lengthBound = List.replicate lengthBytes 0 := by decide
  have hframe : CommandLine.writeBlob false blob =
      Bytes.bigEndian lengthBytes blob.length ++ blob := rfl
  have hzeros : [blob].flatMap (CommandLine.writeBlob false) =
      List.replicate (lengthBytes * 0x40000001) 0 := by
    rw [List.flatMap_singleton, hframe, List.length_replicate, hlength,
      List.replicate_append_replicate]
    rfl
  constructor
  · rw [hzeros, unframe_eq_some]
    exact splits_replicate_zero _
  · intro heq
    have hcount := congrArg List.length heq
    rw [List.length_replicate, List.length_singleton] at hcount
    exact absurd hcount (by decide)

end Blob
end RecordTape
