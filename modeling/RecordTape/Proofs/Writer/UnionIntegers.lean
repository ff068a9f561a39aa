import RecordTape.Proofs.Value.Decider
import RecordTape.Proofs.Writer.RangeCheck
/-!
# Integers under unions

A union does with an integer what its decider does with it alone, and puts the position of the
decider in front (`encode_decider`). So an integer that some branch can hold is encoded, unless the
decider is an int and the integer is out of its range, or the base of a decimal is at fault
(`encode_union_integer`).
-/

namespace RecordTape

namespace Schema

theorem branchNumbers_eq (branches : List Schema) :
    branchNumbers branches = branches.flatMap numbers := by
  induction branches with
  | nil => rfl
  | cons s rest ih => rw [branchNumbers, ih, List.flatMap_cons]

/-- Where a union has a canonical form, so has each branch. -/
theorem canonical_branch {branches : List Schema} {s : Schema} {text : String}
    (h : (union branches).canonical = .ok text) (hs : s ∈ branches) :
    s.canonical = .ok s.canonicalText := by
  unfold canonical at h ⊢
  cases hfind : (union branches).numbers.find? (numberLimit ≤ ·) with
  | some n => rw [hfind] at h; cases h
  | none =>
    have hnone : s.numbers.find? (numberLimit ≤ ·) = none := by
      rw [List.find?_eq_none] at hfind ⊢
      intro n hn
      refine hfind n ?_
      rw [numbers, branchNumbers_eq]
      exact List.mem_flatMap.mpr ⟨s, hs, hn⟩
    rw [hnone]

theorem names_of_answers {s : Schema} (h : s.answers) : s.names = .ok [] := by
  cases s <;> first | rfl | cases h

end Schema

namespace Writer

variable {branches : List Schema} {w : Writer} {s : Schema} {i : Nat} {n : Int}

/-- A branch that has names of its own can be written alone. -/
theorem create_branch {names : Names} (hw : Ready (.union branches) w) (hs : s ∈ branches)
    (hnames : s.names = .ok names) : ∃ w', create s = .ok w' := by
  obtain ⟨text, _, htext, -⟩ := bound_of_ready hw
  refine ⟨⟨s, Fingerprint.header s.canonicalText, 0⟩, ?_⟩
  rw [create, freshScratch, Schema.canonical_branch htext hs, hnames]
  rfl

/-! ## Integers alone -/

theorem toValue_integer (hhigh : n < int64Bound) :
    Datum.toValue (Json.int n) = .ok (.long (Int64.ofInt n)) := if_pos hhigh

theorem resolveValue_of_answers (m : Int64) (h : s.answers) :
    resolveValue s (.long m) = (Value.resolveLeaf (.long m) s).mapError .mismatch := by
  rw [resolveValue, Schema.names_of_answers h]
  cases s <;> first | rfl | cases h

section Alone

variable (hlow : -int64Bound ≤ n) (hhigh : n < int64Bound)
include hlow hhigh

theorem resolve_of_ofInteger {v : Value} (hv : s.ofInteger n = some v) (hrange : s.Holds n) :
    resolve s (Json.int n) = .ok v := by
  have hgiven := toValue_integer hhigh
  have hvalue := resolveValue_of_answers (Int64.ofInt n) (Schema.answers_of_ofInteger hv)
  rw [Value.resolveLeaf_of_ofInteger hlow hhigh hv] at hvalue
  rw [resolve_of_resolveValue rfl hgiven hvalue]
  cases s with
  | int =>
    cases hv
    have hkept := (Json.toInt64_toInt32_eq_iff hlow hhigh).mpr (hrange rfl)
    rw [Int64.toInt32_ofInt] at hkept
    simp only [Value.checkNarrowing, Value.checkInt, if_pos hkept]
  | long | float | double | longTime t => cases hv; rfl
  | _ => cases hv

theorem resolve_of_not_holds (h : ¬s.Holds n) :
    resolve s (Json.int n) = .error (.error (.narrowed (Int64.ofInt n))) := by
  obtain ⟨rfl, hrange⟩ := Classical.not_imp.mp h
  have hgiven := toValue_integer hhigh
  have hvalue := resolveValue_of_answers (s := .int) (Int64.ofInt n) rfl
  have hlost := (Json.toInt64_toInt32_eq_iff hlow hhigh).not.mpr hrange
  rw [resolve_of_resolveValue rfl hgiven hvalue]
  simp only [Value.checkNarrowing, Value.checkInt, if_neg hlost]

end Alone

theorem resolve_of_baseFault? {f : Fault} (hhigh : n < int64Bound) (hf : s.baseFault? = some f) :
    resolve s (Json.int n) = .error (.fault f) := by
  have hgiven := toValue_integer hhigh
  have hvalue := resolveValue_of_answers (Int64.ofInt n) (Schema.answers_of_baseFault? hf)
  rw [Value.resolveLeaf_of_baseFault? _ hf] at hvalue
  exact resolve_of_error hgiven hvalue

/-- A schema that does not turn integers away has a form for the integer, or refuses it as one that
it does not hold, or is at fault. -/
theorem resolve_of_answers (hlow : -int64Bound ≤ n) (hhigh : n < int64Bound) (h : s.answers) :
    (∃ v, s.ofInteger n = some v ∧ s.Holds n ∧ resolve s (Json.int n) = .ok v) ∨
      (¬s.Holds n ∧ resolve s (Json.int n) = .error (.error (.narrowed (Int64.ofInt n)))) ∨
      ∃ f, s.baseFault? = some f ∧ resolve s (Json.int n) = .error (.fault f) := by
  rcases Schema.ofInteger_or_baseFault? n h with ⟨v, hv⟩ | ⟨f, hf⟩
  · by_cases hrange : s.Holds n
    · exact .inl ⟨v, hv, hrange, resolve_of_ofInteger hlow hhigh hv hrange⟩
    · exact .inr (.inl ⟨hrange, resolve_of_not_holds hlow hhigh hrange⟩)
  · exact .inr (.inr ⟨f, hf, resolve_of_baseFault? hhigh hf⟩)

/-! ## What the decider does -/

theorem resolveValue_decider {names : Names} (m : Int64)
    (hnames : (Schema.union branches).names = .ok names)
    (hdecider : Schema.decider? branches = some (s, i)) :
    resolveValue (.union branches) (.long m) = Value.union i <$> resolveValue s (.long m) := by
  rw [resolveValue_of_answers m (Schema.decider?_eq_some hdecider).2, resolveValue, hnames]
  show Outcome.mapError _ (Value.fit _ _ _ none _) = _
  rw [Value.fit_union_integer _ m hnames, hdecider]
  simp only
  cases Value.resolveLeaf (.long m) s <;> rfl

/-- The check looks through the union at what the decider has. -/
theorem resolve_decider {names : Names} (hhigh : n < int64Bound)
    (hnames : (Schema.union branches).names = .ok names)
    (hdecider : Schema.decider? branches = some (s, i)) :
    resolve (.union branches) (Json.int n) = Value.union i <$> resolve s (Json.int n) := by
  have hgiven := toValue_integer hhigh
  have hunion := resolveValue_decider (Int64.ofInt n) hnames hdecider
  cases hs : resolveValue s (.long (Int64.ofInt n)) with
  | error stop =>
    rw [hs] at hunion
    rw [resolve_of_error hgiven hs, resolve_of_error hgiven hunion]
    rfl
  | ok r =>
    rw [hs] at hunion
    have hcheck : (Value.long (Int64.ofInt n)).checkNarrowing (.union i r) =
        (Value.long (Int64.ofInt n)).checkNarrowing r := by
      rw [Value.checkNarrowing]
      rfl
    rw [resolve_of_resolveValue rfl hgiven hs, resolve_of_resolveValue rfl hgiven hunion, hcheck]
    cases (Value.long (Int64.ofInt n)).checkNarrowing r <;> rfl

/-- Wherever the schema stands, the value is valid under it and is written as the bytes. -/
structure Written (s : Schema) (v : Value) (b : Bytes) : Prop where
  issues_eq : ∀ fallback names ns, v.issues fallback names ns s = .ok []
  encode_eq : ∀ names ns, v.encode names ns s = .done b

theorem written_of_ofInteger {v : Value} (hv : s.ofInteger n = some v) : ∃ b, Written s v b := by
  cases s with
  | int | long | float | double => cases hv; exact ⟨_, fun _ _ _ => rfl, fun _ _ => rfl⟩
  | longTime t =>
    cases hv
    refine ⟨_, fun fallback names ns => ?_, fun _ _ => rfl⟩
    show Value.issueUnless (t = t) .unsupported = .ok []
    rw [decide_eq_true rfl]
    rfl
  | _ => cases hv

theorem Written.union {v : Value} {b : Bytes} (h : Written s v b) (hget : branches[i]? = some s) :
    Written (.union branches) (.union i v) (Varint.encode i ++ b) where
  issues_eq fallback names ns := by
    simp only [Value.issues, Value.checkThrough, hget]
    exact h.issues_eq fallback names ns
  encode_eq names ns := by
    simp only [Value.encode, Value.encodeThrough, hget, h.encode_eq names ns]
    rfl

/-- A datum whose form is written as these bytes has them for its direct encoding. -/
theorem Written.direct_eq {names : Names} {d : Json} {v : Value} {b : Bytes} (h : Written s v b)
    (hnames : s.names = .ok names) (hv : resolve s d = .ok v) : direct s d = .ok b := by
  have hvalue : encodeValue s v = (b, none) := by
    simp only [encodeValue, hnames, h.issues_eq, h.encode_eq]
    rfl
  simp only [direct, hv, bind, Except.bind, hvalue]
  rfl

/-- A union does with an integer what its decider does with it, behind the position of the
decider. -/
theorem direct_decider {names : Names} (hlow : -int64Bound ≤ n) (hhigh : n < int64Bound)
    (hnames : (Schema.union branches).names = .ok names)
    (hdecider : Schema.decider? branches = some (s, i)) :
    direct (.union branches) (Json.int n) =
      (Varint.encode i ++ ·) <$> direct s (Json.int n) := by
  obtain ⟨hget, hanswers⟩ := Schema.decider?_eq_some hdecider
  have hresolve := resolve_decider hhigh hnames hdecider
  have hstopped {stop : Stop EncodingFailure} (h : resolve s (Json.int n) = .error stop) :
      direct (.union branches) (Json.int n) =
        (Varint.encode i ++ ·) <$> direct s (Json.int n) := by
    rw [direct, direct, hresolve, h]
    rfl
  rcases resolve_of_answers hlow hhigh hanswers with ⟨v, hv, -, h⟩ | ⟨-, h⟩ | ⟨f, -, h⟩
  · obtain ⟨b, hb⟩ := written_of_ofInteger hv
    rw [h] at hresolve
    rw [(hb.union hget).direct_eq hnames hresolve,
      hb.direct_eq (Schema.names_of_answers hanswers) h]
    rfl
  · exact hstopped h
  · exact hstopped h

/-- A union encodes an integer as its decider does by itself, behind the position of the
decider. -/
theorem encode_decider (hw : Ready (.union branches) w) (hlow : -int64Bound ≤ n)
    (hhigh : n < int64Bound) (hdecider : Schema.decider? branches = some (s, i)) :
    (w.encode (Json.int n)).1 = (Varint.encode i ++ ·) <$> encodeAlone s (Json.int n) := by
  obtain ⟨-, names, -, hnames⟩ := bound_of_ready hw
  obtain ⟨hget, hanswers⟩ := Schema.decider?_eq_some hdecider
  obtain ⟨w', hw'⟩ := create_branch hw (List.mem_of_getElem? hget)
    (Schema.names_of_answers hanswers)
  rw [encode_ready hw, encodeAlone_of_ready (ready_of_create hw'),
    direct_decider hlow hhigh hnames hdecider]
  cases direct s (Json.int n) <;> rfl

/-- Only a schema that does not turn integers away encodes one by itself. -/
theorem answers_of_encodeAlone {b : Bytes} (hs : s.kind ≠ .union)
    (h : encodeAlone s (Json.int n) = .ok b) : s.answers := by
  obtain ⟨w, hw, h⟩ := Outcome.bind_eq_ok.mp h
  rw [encode_ready (ready_of_create (Outcome.mapError_eq_ok.mp hw))] at h
  obtain ⟨v, names, hv, -⟩ := direct_eq_ok (Outcome.mapError_eq_ok.mp h)
  obtain ⟨given, names, r, hgiven, hnames, hresolve, -⟩ := resolve_eq_ok hv
  obtain ⟨-, rfl⟩ := Json.toValue_int hgiven
  by_contra hanswers
  obtain ⟨e, he⟩ := Value.meetDirect_of_not_answers
    (.ofDepth (Value.defaultDepth names s)) (Int64.ofInt n) 0 s.ns (.of_names hnames)
    (Bool.eq_false_iff.mpr hanswers)
  have hmeet : Value.resolveWithin names s.ns s (.long (Int64.ofInt n)) = .fail e := by
    rw [← he]
    cases s <;> first | rfl | exact absurd rfl hs
  cases hresolve.symm.trans hmeet

/-! ## Reading back -/

/-- An integer that a branch holds is read back as that branch has it. -/
theorem decode_branch {names : Names} {v : Value} {b : Bytes}
    (hlen : branches.length < Capacity.limit) (hnames : (Schema.union branches).names = .ok names)
    (hget : branches[i]? = some s) (hv : s.ofInteger n = some v)
    (hb : Written (.union branches) (.union i v) b) :
    Value.decodeWithin Decoder.anyLength (.union branches) b = .ok (.union i v) [] := by
  have hi : i < Capacity.limit := (List.getElem?_eq_some_iff.mp hget).1.trans hlen
  have hform : Value.HasForm true names s v ∧ s.isLeaf := by
    cases s <;> cases hv <;> exact ⟨by constructor, rfl⟩
  have hread : Value.ReadsBack names [] true (.union branches) (.union i v) b :=
    Value.readsBack_union hget hi (hb.encode_eq names none) fun piece hpiece =>
      Value.readsBack_leaf hform.1 hform.2 hpiece
  obtain ⟨u, halike, hu⟩ := Value.decodeWithin_of_readsBack hnames (fun _ => rfl) hread []
  rw [List.append_nil] at hu
  have hexact : u = .union i v := by
    cases halike with
    | refl => rfl
    | union _ h =>
      congr 1
      cases s <;> cases hv <;> cases h <;> rfl
  rw [hu, hexact]

/-- An integer that some branch encodes by itself goes to the decider of the union and comes to what
it comes to there alone. If the decider holds it, it is read back in the form that it has there.
Otherwise the decider is an int or at fault: the integer is refused for the range of the int,
whatever the other branches hold, or ends in the fault. A long decides wherever it stands, and holds
any. -/
theorem encode_union_integer {taker : Schema} {b : Bytes} (hw : Ready (.union branches) w)
    (hlow : -int64Bound ≤ n) (hhigh : n < int64Bound) (htaker : taker ∈ branches)
    (hflat : taker.kind ≠ .union) (h : encodeAlone taker (Json.int n) = .ok b) :
    ∃ s i, Schema.decider? branches = some (s, i) ∧ branches[i]? = some s ∧
      (.long ∈ branches → s = .long) ∧
      (w.encode (Json.int n)).1 = (Varint.encode i ++ ·) <$> encodeAlone s (Json.int n) ∧
      ((∃ v b, s.ofInteger n = some v ∧ s.Holds n ∧ (w.encode (Json.int n)).1 = .ok b ∧
          (branches.length < Capacity.limit →
            Value.decodeWithin Decoder.anyLength (.union branches) b = .ok (.union i v) [])) ∨
        (¬s.Holds n ∧
          (w.encode (Json.int n)).1 = .error (.error (.encoding (.narrowed (Int64.ofInt n))))) ∨
        ∃ f, s.baseFault? = some f ∧ (w.encode (Json.int n)).1 = .error (.fault f)) := by
  obtain ⟨-, names, -, hnames⟩ := bound_of_ready hw
  obtain ⟨s, i, hdecider⟩ := Schema.exists_decider? htaker (answers_of_encodeAlone hflat h)
  obtain ⟨hget, hanswers⟩ := Schema.decider?_eq_some hdecider
  have hresolve := resolve_decider hhigh hnames hdecider
  refine ⟨s, i, hdecider, hget, fun hlong => ?_, encode_decider hw hlow hhigh hdecider, ?_⟩
  · obtain ⟨k, hk⟩ := Schema.decider?_of_long hlong
    cases hdecider.symm.trans hk
    rfl
  · rcases resolve_of_answers hlow hhigh hanswers with
      ⟨v, hv, hrange, h⟩ | ⟨hrange, h⟩ | ⟨f, hf, h⟩
    · obtain ⟨b, hb⟩ := written_of_ofInteger hv
      have hunion := hb.union hget
      rw [h] at hresolve
      have hencode := (encode_ready hw (Json.int n)).trans
        (Outcome.mapError_eq_ok.mpr (hunion.direct_eq hnames hresolve))
      exact .inl ⟨v, _, hv, hrange, hencode, fun hlen => decode_branch hlen hnames hget hv hunion⟩
    · rw [h] at hresolve
      exact .inr (.inl ⟨hrange, encode_of_resolve_error hw hresolve⟩)
    · rw [h] at hresolve
      exact .inr (.inr ⟨f, hf, encode_of_resolve_error hw hresolve⟩)

/-- A double holds `2 ^ 40`. -/
theorem encodeAlone_double :
    encodeAlone .double (Json.int 1099511627776) = .ok [0, 0, 0, 0, 0, 0, 112, 66] := by
  obtain ⟨w, hw⟩ : ∃ w, create .double = .ok w := ⟨_, rfl⟩
  rw [encodeAlone_of_ready (ready_of_create hw)]
  rfl

/-- With a long after them an int and a double are passed over. -/
theorem encode_union_integer_long :
    ∃ w b, forSchema (.union [.int, .double, .long]) = .ok w ∧
      (w.encode (Json.int 1099511627776)).1 = .ok b ∧
      Value.decodeWithin Decoder.anyLength (.union [.int, .double, .long]) b =
        .ok (.union 2 (.long 1099511627776)) [] := by
  obtain ⟨w, hw⟩ : ∃ w, forSchema (.union [.int, .double, .long]) = .ok w := ⟨_, rfl⟩
  obtain ⟨s, i, hdecider, -, -, -, hends⟩ := encode_union_integer
    (ready_of_create (create_of_forSchema hw)) (by decide) (by decide)
    (List.mem_cons_of_mem _ List.mem_cons_self) nofun encodeAlone_double
  cases hdecider
  rcases hends with ⟨v, b, ⟨⟩, -, hencode, hread⟩ | ⟨hrange, -⟩ | ⟨f, ⟨⟩, -⟩
  · exact ⟨w, b, hw, hencode, hread (by decide)⟩
  · exact absurd nofun hrange

/-- An int before a double takes an integer of more than 32 bits, and it is refused. -/
theorem encode_union_refuses_integer :
    ∃ w, forSchema (.union [.int, .double]) = .ok w ∧
      encodeAlone .double (Json.int 1099511627776) = .ok [0, 0, 0, 0, 0, 0, 112, 66] ∧
      (w.encode (Json.int 1099511627776)).1 =
        .error (.error (.encoding (.narrowed 1099511627776))) :=
  ⟨_, rfl, encodeAlone_double, rfl⟩

end Writer
end RecordTape
