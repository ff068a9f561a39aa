import RecordTape.Proofs.Value.RoundTrip
/-!
# What reading shows

A value that was resolved has the form of its schema but for the sizes of its fixed bytes. If bytes
are read as a value like it, these sizes are right as well, since nothing else is ever read
(`hasForm_of_decode`). It does not matter which bytes these are.
-/

namespace RecordTape

namespace Decoder

/-- Whatever the step reads has the property. -/
def Gives {α : Type} (x : Decoder α) (p : α → Prop) : Prop :=
  ∀ b a rest, x b = .ok a rest → p a

variable {α β : Type} {p : α → Prop} {q : β → Prop} {x : Decoder α}

theorem bind_eq_ok {f : α → Decoder β} {b rest : Bytes} {a' : β} :
    (x >>= f) b = .ok a' rest ↔ ∃ a between, x b = .ok a between ∧ f a between = .ok a' rest := by
  show EStateM.bind x f b = _ ↔ _
  unfold EStateM.bind
  cases h : x b with
  | ok a between =>
    constructor
    · intro h
      exact ⟨a, between, rfl, h⟩
    · rintro ⟨_, _, ⟨⟩, h⟩
      exact h
  | error e between =>
    constructor
    · intro h
      cases h
    · rintro ⟨_, _, h, -⟩
      cases h

namespace Gives

theorem bind {f : α → Decoder β} (h : Gives x p) (hf : ∀ a, p a → Gives (f a) q) :
    Gives (x >>= f) q := by
  intro b a' rest hok
  obtain ⟨a, between, ha, hok⟩ := bind_eq_ok.mp hok
  exact hf a (h b a between ha) between a' rest hok

theorem pure {a : α} (h : p a) : Gives (Pure.pure a) p := by
  rintro b _ _ ⟨⟩
  exact h

theorem any (x : Decoder α) : Gives x fun _ => True := fun _ _ _ _ => trivial

theorem fail (e : DecodeError) : Gives (Decoder.fail e) p := by
  intro b a rest h
  cases h

theorem crash (f : Fault) : Gives (Decoder.crash f) p := by
  intro b a rest h
  cases h

theorem map {f : α → β} (h : Gives x p) (hf : ∀ a, p a → q (f a)) : Gives (f <$> x) q :=
  h.bind fun a ha => pure (hf a ha)

end Gives

theorem gives_mapM {r : α → β → Prop} {f : α → Decoder β} {xs : List α}
    (h : ∀ a ∈ xs, Gives (f a) (r a)) : Gives (xs.mapM f) (List.Forall₂ r xs) := by
  induction xs with
  | nil =>
    rw [List.mapM_nil]
    exact .pure .nil
  | cons a xs ih =>
    rw [List.mapM_cons]
    refine (h a List.mem_cons_self).bind fun b hb => ?_
    refine (ih fun a' ha' => h a' (List.mem_cons_of_mem _ ha')).bind fun bs hbs => ?_
    exact .pure (.cons hb hbs)

theorem gives_items (h : Gives x p) (count : Nat) {before : List α} (hbefore : ∀ a ∈ before, p a) :
    Gives (items x count before) fun as => ∀ a ∈ as, p a := by
  induction count generalizing before with
  | zero => exact .pure hbefore
  | succ count ih =>
    refine h.bind fun a ha => ih ?_
    intro a' ha'
    rcases List.mem_cons.mp ha' with rfl | ha'
    · exact ha
    · exact hbefore a' ha'

theorem gives_blocks (h : Gives x p) (greatest limit : Nat) {before : List α}
    (hbefore : ∀ a ∈ before, p a) :
    Gives (blocks greatest x limit before) fun as => ∀ a ∈ as, p a := by
  induction limit generalizing before with
  | zero => exact .fail _
  | succ limit ih =>
    refine (Gives.any _).bind fun count _ => ?_
    split
    · exact .pure hbefore
    · exact (gives_items h _ hbefore).bind fun as has => ih has

theorem gives_collection (h : Gives x p) (greatest : Nat) :
    Gives (collection greatest x) fun as => ∀ a ∈ as, p a := by
  refine (Gives.any _).bind fun b _ => ?_
  refine (gives_blocks h greatest _ (by simp)).bind fun as has => ?_
  exact .pure fun a ha => has a (List.mem_reverse.mp ha)

theorem gives_take (n : Nat) : Gives (take n) fun b => b.length = n := by
  intro b a rest h
  obtain ⟨taken, between, htaken, h⟩ := bind_eq_ok.mp h
  unfold take? at htaken
  split at htaken <;> cases htaken <;> cases h
  rw [List.length_take]
  omega

end Decoder

namespace Value

open Decoder (Gives)

/-! ## Entries -/

theorem mem_insertEntry {α : Type} {key : String} {value : α} {entries : List (String × α)}
    {p : String × α} (h : p ∈ insertEntry key value entries) : p ∈ entries ∨ p.2 = value := by
  induction entries with
  | nil =>
    rcases List.mem_singleton.mp h with rfl
    exact .inr rfl
  | cons q rest ih =>
    obtain ⟨k, v⟩ := q
    rw [insertEntry] at h
    split at h
    · rcases List.mem_cons.mp h with rfl | h
      · exact .inr rfl
      · exact .inl (List.mem_cons_of_mem _ h)
    · rcases List.mem_cons.mp h with rfl | h
      · exact .inl List.mem_cons_self
      · exact (ih h).imp_left (List.mem_cons_of_mem _)

/-- The values of a map are among those of the entries it was made of. -/
theorem exists_ofEntries {q : Value → Prop} {entries : List (String × Value)}
    (h : ∀ p ∈ entries, q p.2) : ∃ kept, ofEntries entries = .map kept ∧ ∀ p ∈ kept, q p.2 := by
  refine ⟨_, rfl, ?_⟩
  have hfold : ∀ (rest before : List (String × Value)), (∀ p ∈ rest, q p.2) →
      (∀ p ∈ before, q p.2) →
      ∀ p ∈ rest.foldl (fun m p => insertEntry p.1 p.2 m) before, q p.2 := by
    intro rest
    induction rest with
    | nil => exact fun before _ hbefore => hbefore
    | cons r rest ih =>
      intro before hrest hbefore
      rw [List.foldl_cons]
      refine ih _ (fun p hp => hrest p (List.mem_cons_of_mem _ hp)) fun p hp => ?_
      rcases mem_insertEntry hp with hp | hp
      · exact hbefore p hp
      · exact hp ▸ hrest r List.mem_cons_self
  exact hfold entries [] h (by simp)

/-! ## Parts of values that are alike -/

theorem alike_all (vs : List Value) : List.Forall₂ Alike vs vs := by
  induction vs with
  | nil => exact .nil
  | cons v vs ih => exact .cons (.refl v) ih

theorem exists_of_forall₂ {r : Value → Value → Prop} {vs ws : List Value}
    (h : List.Forall₂ r vs ws) {v : Value} (hv : v ∈ vs) : ∃ w ∈ ws, r v w := by
  obtain ⟨i, hi, rfl⟩ := List.mem_iff_getElem.mp hv
  have hi' : i < ws.length := h.length_eq ▸ hi
  exact ⟨ws[i], List.getElem_mem hi', h.get hi hi'⟩

/-- Parts that are each related to the parts of one list are related through it. -/
theorem exists_of_mem_zip {α β γ : Type} {r : α → γ → Prop} {r' : β → γ → Prop} {xs : List α}
    {ys : List β} {zs : List γ} (h : List.Forall₂ r xs zs) (h' : List.Forall₂ r' ys zs) {p : α × β}
    (hp : p ∈ xs.zip ys) : ∃ z, r p.1 z ∧ r' p.2 z := by
  induction h generalizing ys with
  | nil => cases hp
  | cons hxz _ ih =>
    cases h' with
    | cons hyz hrest =>
      rcases List.mem_cons.mp hp with rfl | hp
      · exact ⟨_, hxz, hyz⟩
      · exact ih hrest hp

namespace Alike

theorem array_inv {vs ws : List Value} (h : Alike (.array vs) (.array ws)) :
    List.Forall₂ Alike vs ws := by
  cases h with
  | refl => exact alike_all vs
  | array h => exact h

theorem map_inv {vs ws : List (String × Value)} (h : Alike (.map vs) (.map ws)) :
    List.Forall₂ Alike (vs.map (·.2)) (ws.map (·.2)) := by
  cases h with
  | refl => exact alike_all _
  | map _ h => exact h

theorem record_inv {vs ws : List (String × Value)} (h : Alike (.record vs) (.record ws)) :
    List.Forall₂ Alike (vs.map (·.2)) (ws.map (·.2)) := by
  cases h with
  | refl => exact alike_all _
  | record _ h => exact h

theorem union_inv {i j : Nat} {v w : Value} (h : Alike (.union i v) (.union j w)) :
    i = j ∧ Alike v w := by
  cases h with
  | refl => exact ⟨rfl, .refl v⟩
  | union i h => exact ⟨rfl, h⟩

end Alike

/-! ## Sizes -/

/-- A value like this one that has the form of the schema has it with the sizes. -/
def Shows (names : Names) (s : Schema) (w : Value) : Prop :=
  ∀ v, HasForm false names s v → Alike v w → HasForm true names s v

theorem hasForm_null {names : Names} {s : Schema} {v : Value} (h : HasForm false names s v)
    (hv : v = .null) : HasForm true names s v := by
  induction h with
  | null => exact .null
  | ref hf _ ih => exact .ref hf (ih hv)
  | _ => cases hv

section Parts

variable {names : Names} {greatest : Nat} {s : Schema} {reading : Decoder Value}

theorem shows_fixed (name : Name) (size : Nat) :
    Gives (.fixed <$> Decoder.take size) (Shows names (.fixed name size)) := by
  refine (Decoder.gives_take size).map fun c hc => ?_
  intro v hv hlike
  cases hv with
  | fixed hlen _ =>
    cases hlike
    exact .fixed hlen fun _ => hc

theorem shows_array (h : Gives reading (Shows names s)) :
    Gives (.array <$> Decoder.collection greatest reading) (Shows names (.array s)) := by
  refine (Decoder.gives_collection h greatest).map fun ws hws => ?_
  intro v hv hlike
  cases hv with
  | array hlen hitems =>
    refine .array hlen fun v hv => ?_
    obtain ⟨w, hw, hvw⟩ := exists_of_forall₂ hlike.array_inv hv
    exact hws w hw v (hitems v hv) hvw

theorem shows_map (h : Gives reading (Shows names s)) :
    Gives (ofEntries <$> Decoder.collection greatest (decodeEntry greatest reading))
      (Shows names (.map s)) := by
  have hentry : Gives (decodeEntry greatest reading) fun q => Shows names s q.2 := by
    refine (Gives.any _).bind fun k _ => ?_
    split
    · exact h.bind fun w hw => .pure hw
    · exact .fail _
  refine (Decoder.gives_collection hentry greatest).map fun entries hentries => ?_
  obtain ⟨ws, hof, hws⟩ := exists_ofEntries hentries
  rw [hof]
  intro v hv hlike
  cases hv with
  | map hlen hkeys htexts hvalues =>
    refine .map hlen hkeys htexts fun p hp => ?_
    obtain ⟨w, hw, hvw⟩ := exists_of_forall₂ hlike.map_inv (List.mem_map_of_mem hp)
    obtain ⟨q, hq, rfl⟩ := List.mem_map.mp hw
    exact hws q hq p.2 (hvalues p hp) hvw

theorem shows_branch {branches : List Schema} {i : Nat} {branch : Schema}
    (hbranch : branches[i]? = some branch) (h : Gives reading (Shows names branch)) :
    Gives (.union i <$> reading) (Shows names (.union branches)) := by
  refine h.map fun w hw => ?_
  intro v hv hlike
  cases hv with
  | union hget hi hform =>
    obtain ⟨rfl, hvw⟩ := hlike.union_inv
    cases hget.symm.trans hbranch
    exact .union hget hi (hw _ hform hvw)

/-- Where the bytes end, a union has its first branch with null as the content. -/
theorem shows_end (branches : List Schema) : Shows names (.union branches) (.union 0 .null) := by
  intro v hv hlike
  cases hv with
  | union hget hi hform =>
    obtain ⟨rfl, hnull⟩ := hlike.union_inv
    refine .union hget hi (hasForm_null hform ?_)
    cases hnull
    rfl

theorem shows_record {name : Name} {fields : List (Field Schema)}
    {field : Field Schema → Decoder Value}
    (h : ∀ f ∈ fields, Gives (field f) (Shows names f.schema)) :
    Gives (.record <$> fields.mapM fun f => do return (f.name, ← field f))
      (Shows names (.record name fields)) := by
  have hfields : Gives (fields.mapM fun f => do return (f.name, ← field f))
      (List.Forall₂ (fun f q => Shows names f.schema q.2) fields) :=
    Decoder.gives_mapM fun f hf => (h f hf).bind fun w hw => .pure hw
  refine hfields.map fun ws hws => ?_
  intro v hv hlike
  cases hv with
  | @record _ _ vs heq hforms =>
    refine .record heq fun p hp => ?_
    have hparts := hlike.record_inv
    rw [List.forall₂_map_left_iff, List.forall₂_map_right_iff] at hparts
    obtain ⟨q, hshows, hpq⟩ := exists_of_mem_zip hws hparts hp
    exact hshows p.2.2 (hforms p hp) hpq

end Parts

theorem gives_decodeUpTo {strict : Bool} {depth : Nat} {names : Names}
    (hnames : names.Regular strict depth) (greatest fuel : Nat) {bare : Bool} {ns : Namespace}
    {s : Schema} (hs : s.isRegular strict bare) (hscope : Scope bare ns) :
    Gives (decodeUpTo greatest fuel names ns s) (Shows names s) := by
  induction fuel generalizing bare ns s with
  | zero => exact .crash _
  | succ fuel ih =>
    cases s with
    | fixed name size => exact shows_fixed name size
    | array items => exact shows_array (ih hs hscope)
    | map values => exact shows_map (ih hs hscope)
    | union branches =>
      simp only [Schema.isRegular, Bool.and_eq_true] at hs
      refine (Gives.any _).bind fun index _ => ?_
      split
      · exact .pure (shows_end branches)
      · split
        · rename_i i branch hbranch
          split at hbranch
          · cases hbranch
          · have hmem := List.mem_of_getElem? hbranch
            exact shows_branch hbranch (ih (Schema.branchesRegular_iff.mp hs.2 _ hmem) hscope)
        · exact .fail _
    | record name fields =>
      simp only [Schema.isRegular, Bool.and_eq_true] at hs
      simp only [decodeUpTo, Name.qualify_of_regular hscope hs.1]
      exact shows_record fun f hf => ih (Schema.regular_of_mem hs.2 f hf).1 (Scope.named name)
    | ref name =>
      simp only [Schema.isRegular] at hs
      simp only [decodeUpTo, Name.qualify_of_regular hscope hs]
      split
      · rename_i target hf
        obtain ⟨-, htarget, -⟩ := hnames.find? hf
        intro b w rest hok v hv hlike
        cases hv with
        | ref hf' hform =>
          cases hf.symm.trans hf'
          exact .ref hf (ih htarget (Scope.named name) b w rest hok v hform hlike)
      · exact .fail _
    | _ =>
      -- only fixed bytes have sizes, so a schema without parts shows nothing else
      intro b w rest _ v hv _
      cases hv
      constructor <;> assumption

/-- If any bytes are read as a value like this one, it has the form of the schema with the sizes. -/
theorem hasForm_of_decode {strict : Bool} {s : Schema} {names : Names} (hs : s.regularAlone strict)
    (hnames : s.names = .ok names) {v w : Value} (h : HasForm false names s v) {greatest : Nat}
    {b rest : Bytes} (hread : decodeWithin greatest s b = .ok w rest) (hlike : Alike v w) :
    HasForm true names s v := by
  rw [decodeWithin, hnames] at hread
  exact gives_decodeUpTo (Schema.names_regular hs hnames) greatest _ hs (Scope.alone s) b w rest
    hread v h hlike

end Value
end RecordTape
