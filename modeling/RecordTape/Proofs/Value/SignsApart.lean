import RecordTape.Proofs.Value.Agree
import RecordTape.Value.Encode
import RecordTape.Value.Validate
/-!
# Writing up to the signs of zeros

Validation finds the same issues in a value whatever the signs of its zeros (`issues_oneZero`), and
two values that differ in these signs at most are written as bytes that do (`encode_alike`):
`SignsApart` pairs the zeros that are written and takes every other byte as it is.
-/

namespace RecordTape

namespace Value

/-! ## Validation -/

theorem searchIssues_oneZero (fallback : Fallback) (v : Value) :
    searchIssues fallback v.oneZero = searchIssues fallback v := by
  funext names ns s
  cases s with
  | union branches =>
    rw [searchIssues, searchIssues, kind_oneZero, chooseBranch_agree (plain_agree fallback v)]
  | _ => rfl

mutual

/-- The sign of a zero is no issue. -/
theorem issues_oneZero (fallback : Fallback) (v : Value) :
    issues fallback v.oneZero = issues fallback v := by
  have hsearch := searchIssues_oneZero fallback v
  cases v with
  | float x =>
    have hleaf (s : Schema) : leafIssues s (.float x.oneZero) = leafIssues s (.float x) := by
      cases s <;> rfl
    rw [oneZero] at hsearch ⊢
    simp only [issues, hsearch, hleaf]
  | double x =>
    have hleaf (s : Schema) : leafIssues s (.double x.oneZero) = leafIssues s (.double x) := by
      cases s <;> rfl
    rw [oneZero] at hsearch ⊢
    simp only [issues, hsearch, hleaf]
  | array items =>
    have hparts := checks_oneZero fallback items
    rw [oneZero] at hsearch ⊢
    simp only [issues, hsearch, hparts]
  | map entries =>
    have hparts := entryChecks_oneZero fallback entries
    rw [oneZero] at hsearch ⊢
    simp only [issues, hsearch, hparts]
  | union i v =>
    have hpart := issues_oneZero fallback v
    rw [oneZero]
    simp only [issues, hpart]
  | record fields =>
    have hparts := entryChecks_oneZero fallback fields
    rw [oneZero] at hsearch ⊢
    simp only [issues, hsearch, hparts]
  | _ => rfl

theorem checks_oneZero (fallback : Fallback) (items : List Value) :
    checks fallback (itemsOneZero items) = checks fallback items := by
  cases items with
  | nil => rfl
  | cons v rest =>
    rw [itemsOneZero, checks, checks, issues_oneZero fallback v, checks_oneZero fallback rest]

theorem entryChecks_oneZero (fallback : Fallback) (entries : List (String × Value)) :
    entryChecks fallback (entriesOneZero entries) = entryChecks fallback entries := by
  cases entries with
  | nil => rfl
  | cons p rest =>
    rw [entriesOneZero, entryChecks, entryChecks, issues_oneZero fallback p.2,
      entryChecks_oneZero fallback rest]

end

end Value

/-! ## Bytes -/

/-- The same bytes but for the signs of zeros: a single or double zero may stand where the other has
the zero of the same precision and the other sign. -/
inductive SignsApart : Bytes → Bytes → Prop
  | nil : SignsApart [] []
  | byte (b : UInt8) {x y : Bytes} : SignsApart x y → SignsApart (b :: x) (b :: y)
  | float {p q : Binary32} {x y : Bytes} : p.magnitude = 0 → q.magnitude = 0 → SignsApart x y →
    SignsApart (Value.floatBytes p ++ x) (Value.floatBytes q ++ y)
  | double {p q : Binary64} {x y : Bytes} : p.magnitude = 0 → q.magnitude = 0 → SignsApart x y →
    SignsApart (Value.floatBytes p ++ x) (Value.floatBytes q ++ y)

namespace SignsApart

theorem append {x y x' y' : Bytes} (h : SignsApart x y) (h' : SignsApart x' y') :
    SignsApart (x ++ x') (y ++ y') := by
  induction h with
  | nil => exact h'
  | byte b _ ih => exact .byte b ih
  | float hp hq _ ih => simpa only [List.append_assoc] using .float hp hq ih
  | double hp hq _ ih => simpa only [List.append_assoc] using .double hp hq ih

theorem refl (x : Bytes) : SignsApart x x := by
  induction x with
  | nil => exact .nil
  | cons b x ih => exact .byte b ih

end SignsApart

namespace Emission

/-- Two emissions that stop alike, errors aside, and whose bytes differ in the signs of zeros at
most. -/
structure Alike (a b : Emission) : Prop where
  bytes : SignsApart a.bytes b.bytes
  stop : a.stop.map (Stop.map fun _ => ()) = b.stop.map (Stop.map fun _ => ())

namespace Alike

theorem refl (e : Emission) : Alike e e := ⟨.refl _, rfl⟩

theorem append {a b a' b' : Emission} (h : Alike a b) (h' : Alike a' b') :
    Alike (a ++ a') (b ++ b') := by
  obtain ⟨bytes, stop⟩ := a
  obtain ⟨bytes', stop'⟩ := b
  have hstop := h.stop
  cases stop with
  | none =>
    cases stop' with
    | none => exact ⟨h.bytes.append h'.bytes, h'.stop⟩
    | some s => cases hstop
  | some s =>
    cases stop' with
    | none => cases hstop
    | some s' => exact h

theorem concat {σ τ : Type} {f : σ → Emission} {g : τ → Emission} {xs : List σ} {ys : List τ}
    (h : List.Forall₂ (fun x y => Alike (f x) (g y)) xs ys) :
    Alike (Emission.concat (xs.map f)) (Emission.concat (ys.map g)) := by
  induction h with
  | nil => exact .refl _
  | cons hxy _ ih => exact hxy.append ih

end Alike
end Emission

/-- Two ways of writing that come to the same under every schema, but for the signs of zeros. -/
def Encoding.Alike (d e : Encoding) : Prop :=
  ∀ (names : Names) (ns : Namespace) (s : Schema), (d names ns s).Alike (e names ns s)

namespace Value

/-! ## Writing -/

theorem encodeThrough_alike {d e : Encoding} (h : d.Alike e) :
    (encodeThrough d).Alike (encodeThrough e) := by
  intro names ns s
  cases s with
  | ref name =>
    simp only [encodeThrough]
    split
    · exact h _ _ _
    · exact .refl _
  | _ => exact h _ _ _

theorem entryOf_related {σ τ : Type} {R : σ → τ → Prop} {ps : List (String × σ)}
    {qs : List (String × τ)} (h : EntriesRelated R ps qs) (field : Field Schema) :
    Option.Rel R (entryOf ps field) (entryOf qs field) := by
  unfold entryOf
  induction field.name :: field.aliases with
  | nil => exact .none
  | cons name rest ih =>
    rw [List.findSome?_cons, List.findSome?_cons]
    have hrel := h.lookup name
    generalize ps.lookup name = p at hrel
    generalize qs.lookup name = q at hrel
    cases hrel with
    | none => exact ih
    | some hpq => exact .some hpq

theorem encodeFields_alike {ps qs : List (String × Encoding)}
    (h : EntriesRelated Encoding.Alike ps qs) (values values' : List (String × Value))
    (names : Names) (ns : Namespace) (fields : List (Field Schema)) :
    (encodeFields names ns values ps fields).Alike (encodeFields names ns values' qs fields) := by
  induction fields with
  | nil => exact .refl _
  | cons field rest ih =>
    rw [encodeFields, encodeFields]
    have hrel := entryOf_related h field
    generalize entryOf ps field = p at hrel
    generalize entryOf qs field = q at hrel
    cases hrel with
    | none => exact ⟨.nil, rfl⟩
    | some hpq => exact (hpq names ns field.schema).append ih

mutual

/-- Values that differ in the signs of zeros at most are written so. -/
theorem encode_alike {v w : Value} (h : v.oneZero = w.oneZero) : (encode v).Alike (encode w) := by
  cases v with
  | float x =>
    cases w <;> simp only [oneZero, reduceCtorEq, float.injEq] at h
    refine encodeThrough_alike fun _ _ s => ?_
    rcases Binary.eq_or_zero_of_oneZero h with rfl | ⟨hx, hy⟩
    · exact .refl _
    · exact ⟨by simpa [encodeLeaf, Emission.done] using SignsApart.float hx hy .nil, rfl⟩
  | double x =>
    cases w <;> simp only [oneZero, reduceCtorEq, double.injEq] at h
    refine encodeThrough_alike fun _ _ s => ?_
    rcases Binary.eq_or_zero_of_oneZero h with rfl | ⟨hx, hy⟩
    · exact .refl _
    · exact ⟨by simpa [encodeLeaf, Emission.done] using SignsApart.double hx hy .nil, rfl⟩
  | array items =>
    cases w <;> simp only [oneZero, reduceCtorEq, array.injEq] at h
    refine encodeThrough_alike fun names ns s => ?_
    have hparts := encodings_alike h
    have hlen := congrArg List.length h
    rw [itemsOneZero_eq, itemsOneZero_eq, List.length_map, List.length_map] at hlen
    cases s with
    | array schema =>
      simp only [hlen]
      refine (Emission.Alike.append (.refl _) (.concat ?_)).append (.refl _)
      exact hparts.imp fun d e hde => hde names ns schema
    | _ => exact .refl _
  | map entries =>
    cases w <;> simp only [oneZero, reduceCtorEq, map.injEq] at h
    refine encodeThrough_alike fun names ns s => ?_
    have hparts := entryEncodings_alike h
    have hlen := congrArg List.length h
    rw [entriesOneZero_eq, entriesOneZero_eq, List.length_map, List.length_map] at hlen
    cases s with
    | map schema =>
      simp only [hlen]
      refine (Emission.Alike.append (.refl _) (.concat ?_)).append (.refl _)
      refine hparts.imp fun p q hpq => ?_
      simp only [hpq.1]
      exact (Emission.Alike.refl _).append (hpq.2 names ns schema)
    | _ => exact .refl _
  | union i v =>
    cases w <;> simp only [oneZero, reduceCtorEq, union.injEq] at h
    obtain ⟨rfl, h⟩ := h
    refine encodeThrough_alike fun names ns s => ?_
    cases s with
    | union branches =>
      simp only
      split
      · exact (Emission.Alike.refl _).append (encode_alike h names ns _)
      · exact .refl _
    | _ => exact .refl _
  | record fields =>
    cases w <;> simp only [oneZero, reduceCtorEq, record.injEq] at h
    refine encodeThrough_alike fun names ns s => ?_
    have hparts := entryEncodings_alike h
    cases s with
    | record name fields =>
      exact encodeFields_alike (List.forall₂_reverse_iff.mpr hparts) _ _ names _ fields
    | _ => exact .refl _
  | _ => cases w <;> first | (cases h; exact fun _ _ _ => .refl _) | cases h

theorem encodings_alike {items items' : List Value} (h : itemsOneZero items = itemsOneZero items') :
    List.Forall₂ Encoding.Alike (encodings items) (encodings items') := by
  cases items with
  | nil => cases items' <;> [exact .nil; cases h]
  | cons v rest =>
    cases items' with
    | nil => cases h
    | cons w rest' =>
      rw [itemsOneZero, itemsOneZero, List.cons.injEq] at h
      exact .cons (encode_alike h.1) (encodings_alike h.2)

theorem entryEncodings_alike {entries entries' : List (String × Value)}
    (h : entriesOneZero entries = entriesOneZero entries') :
    EntriesRelated Encoding.Alike (entryEncodings entries) (entryEncodings entries') := by
  cases entries with
  | nil => cases entries' <;> [exact .nil; cases h]
  | cons p rest =>
    cases entries' with
    | nil => cases h
    | cons q rest' =>
      rw [entriesOneZero, entriesOneZero, List.cons.injEq, Prod.mk.injEq] at h
      exact .cons ⟨h.1.1, encode_alike h.1.2⟩ (entryEncodings_alike h.2)

end

end Value
end RecordTape
