import RecordTape.Proofs.Value.Entries
import RecordTape.Proofs.Value.Levels
import RecordTape.Proofs.Value.Parts
/-!
# Reading values back

A value in the form of a regular schema, its fixed bytes in their sizes, is read back from the front
of the bytes written for it, whatever follows them (`readsBack_encode`). It comes back the same but
for decimals, which keep their number and may gain bytes. The depth that reading sets aside is
enough: each byte pays for the levels up to the next one.
-/

namespace RecordTape

open Decoder (Reads)

namespace Value

/-! ## Likeness -/

/-- The same value, up to the bytes that hold the numbers of decimals. -/
inductive Alike : Value → Value → Prop
  | refl (v : Value) : Alike v v
  | decimal {b c : Bytes} : Decimal.toInt b = Decimal.toInt c → Alike (.decimal b) (.decimal c)
  | array {vs ws : List Value} : List.Forall₂ Alike vs ws → Alike (.array vs) (.array ws)
  | map {vs ws : List (String × Value)} : vs.map (·.1) = ws.map (·.1) →
    List.Forall₂ Alike (vs.map (·.2)) (ws.map (·.2)) → Alike (.map vs) (.map ws)
  | union (i : Nat) {v w : Value} : Alike v w → Alike (.union i v) (.union i w)
  | record {vs ws : List (String × Value)} : vs.map (·.1) = ws.map (·.1) →
    List.Forall₂ Alike (vs.map (·.2)) (ws.map (·.2)) → Alike (.record vs) (.record ws)

/-! ## Maps -/

theorem insertEntry_new {α : Type} {key : String} {value : α} {entries : List (String × α)}
    (h : key ∉ entries.map (·.1)) : insertEntry key value entries = entries ++ [(key, value)] := by
  induction entries with
  | nil => rfl
  | cons p rest ih =>
    obtain ⟨k, v⟩ := p
    simp only [List.map_cons, List.mem_cons, not_or] at h
    rw [insertEntry, if_neg (fun heq => h.1 heq.symm), ih h.2]
    rfl

/-- A map whose keys differ has its entries in their order. -/
theorem ofEntries_nodup {entries : List (String × Value)} (h : (entries.map (·.1)).Nodup) :
    ofEntries entries = .map entries := by
  have hfold : ∀ (rest before : List (String × Value)), ((before ++ rest).map (·.1)).Nodup →
      rest.foldl (fun m p => insertEntry p.1 p.2 m) before = before ++ rest := by
    intro rest
    induction rest with
    | nil => simp
    | cons p rest ih =>
      intro before hnodup
      have hnew : p.1 ∉ before.map (·.1) := by
        rw [List.map_append, List.map_cons] at hnodup
        intro hmem
        exact (List.nodup_append.mp hnodup).2.2 _ hmem _ List.mem_cons_self rfl
      rw [List.foldl_cons, insertEntry_new hnew, ih _ (by simpa using hnodup)]
      simp
  show Value.map (entries.foldl (fun m p => insertEntry p.1 p.2 m) []) = _
  rw [hfold entries [] (by simpa using h), List.nil_append]

/-! ## Writing parts -/

theorem encodings_eq (items : List Value) : encodings items = items.map encode := by
  induction items with
  | nil => rfl
  | cons v rest ih => rw [encodings, ih]; rfl

theorem entryEncodings_eq (entries : List (String × Value)) :
    entryEncodings entries = entries.map fun p => (p.1, encode p.2) := by
  induction entries with
  | nil => rfl
  | cons p rest ih => rw [entryEncodings, ih]; rfl

theorem encodeThrough_ref {direct : Encoding} {names : Names} {ns : Namespace} {name : Name}
    {target : Schema} (hq : name.qualify ns = name) (hf : names.find? name = some target)
    (hd : target.definedName = some name) :
    encodeThrough direct names ns (.ref name) = encodeThrough direct names ns target := by
  cases target <;> simp_all [encodeThrough, Schema.definedName]

/-- A reference is written as its definition. -/
theorem encode_ref {names : Names} {ns : Namespace} {name : Name} {target : Schema}
    (hq : name.qualify ns = name) (hf : names.find? name = some target)
    (hd : target.definedName = some name) (v : Value) :
    encode v names ns (.ref name) = encode v names ns target := by
  cases v with
  | union i v => simp only [encode, encodeThrough_ref hq hf hd]
  | array items => simp only [encode, encodeThrough_ref hq hf hd]
  | map entries => simp only [encode, encodeThrough_ref hq hf hd]
  | record entries => simp only [encode, encodeThrough_ref hq hf hd]
  | _ => exact encodeThrough_ref hq hf hd

theorem encodeFields_eq_done {names : Names} {ns : Namespace} {values : List (String × Value)}
    {entries : List (String × Encoding)} {fields : List (Field Schema)} {b : Bytes}
    (h : encodeFields names ns values entries fields = .done b) :
    ∃ parts : List Bytes, b = parts.flatten ∧ List.Forall₂ (fun f part =>
      ∃ encoding, entryOf entries f = some encoding ∧ encoding names ns f.schema = .done part)
      fields parts := by
  induction fields generalizing b with
  | nil =>
    cases h
    exact ⟨[], rfl, .nil⟩
  | cons f rest ih =>
    rw [encodeFields] at h
    split at h
    · rename_i encoding hentry
      obtain ⟨x, y, hx, hy, rfl⟩ := Emission.append_eq_done.mp h
      obtain ⟨parts, rfl, hparts⟩ := ih hy
      exact ⟨x :: parts, rfl, .cons ⟨encoding, hentry, hx⟩ hparts⟩
    · cases h

/-! ## Fields -/

theorem names_nodup {strict bare : Bool} {fields : List (Field Schema)}
    (hs : Schema.fieldsRegular strict bare fields) : (fields.map (·.name)).Nodup := by
  induction fields with
  | nil => exact List.nodup_nil
  | cons f rest ih =>
    simp only [Schema.fieldsRegular, Bool.and_eq_true, Bool.not_eq_true'] at hs
    rw [List.map_cons, List.nodup_cons]
    refine ⟨?_, ih hs.2⟩
    intro hmem
    obtain ⟨g, hg, heq⟩ := List.mem_map.mp hmem
    have : Field.taken strict f.name rest := by
      simp only [Field.taken, List.any_eq_true]
      exact ⟨g, hg, by simp [heq]⟩
    rw [this] at hs
    simp at hs

/-- What is written for a field is the value that has its name. -/
theorem entryOf_of_zip {strict bare : Bool} {fields : List (Field Schema)}
    {entries : List (String × Value)} (hs : Schema.fieldsRegular strict bare fields)
    (heq : entries.map (·.1) = fields.map (·.name)) {f : Field Schema} {p : String × Value}
    (hp : (f, p) ∈ fields.zip entries) :
    entryOf (entryEncodings entries).reverse f = some (encode p.2) := by
  have hnodup : ((entryEncodings entries).reverse.map (·.1)).Nodup := by
    rw [List.map_reverse, (List.reverse_perm _).nodup_iff, entryEncodings_eq, List.map_map]
    simpa only [Function.comp_def, heq] using names_nodup hs
  have hmem : (p.1, encode p.2) ∈ (entryEncodings entries).reverse := by
    rw [List.mem_reverse, entryEncodings_eq]
    exact List.mem_map_of_mem (List.of_mem_zip hp).2
  have hlookup := lookup_of_mem hmem hnodup
  rw [HasForm.name_eq heq hp] at hlookup
  rw [entryOf, List.findSome?_cons, hlookup]

/-- What is written for the fields of a record is each value under the schema of its field. -/
theorem encodeFields_parts {names : Names} {strict bare : Bool} {ns : Namespace}
    {fields : List (Field Schema)} {entries : List (String × Value)} {b : Bytes}
    (hs : Schema.fieldsRegular strict bare fields) (heq : entries.map (·.1) = fields.map (·.name))
    (h : encodeFields names ns entries (entryEncodings entries).reverse fields = .done b) :
    ∃ parts : List Bytes, b = parts.flatten ∧
      List.Forall₂ (fun p part => encode p.2.2 names ns p.1.schema = .done part)
        (fields.zip entries) parts := by
  obtain ⟨parts, rfl, hparts⟩ := encodeFields_eq_done h
  refine ⟨parts, rfl, ?_⟩
  have hlen := HasForm.length_entries heq
  rw [List.forall₂_iff_get] at hparts ⊢
  obtain ⟨hcount, hget⟩ := hparts
  refine ⟨by simp; omega, ?_⟩
  intro i hi hi'
  have hi₁ : i < fields.length := by simp at hi; omega
  have hzip : (fields.zip entries).get ⟨i, hi⟩ ∈ fields.zip entries := List.get_mem ..
  obtain ⟨encoding, hentry, hpart⟩ := hget i hi₁ hi'
  have hown := entryOf_of_zip hs heq hzip
  simp only [List.get_eq_getElem, List.getElem_zip] at hentry hpart hown ⊢
  cases hentry.symm.trans hown
  exact hpart

end Value

namespace Schema

/-- A schema without parts that is not a reference. -/
def isLeaf : Schema → Bool
  | array _ | map _ | union _ | record .. | ref _ => false
  | _ => true

theorem depth_le_branchDepth {s : Schema} {branches : List Schema} (h : s ∈ branches) :
    s.depth ≤ branchDepth branches := by
  induction branches with
  | nil => cases h
  | cons t rest ih =>
    rw [branchDepth]
    rcases List.mem_cons.mp h with rfl | h
    · omega
    · have := ih h
      omega

theorem depth_le_fieldDepth {f : Field Schema} {fields : List (Field Schema)} (h : f ∈ fields) :
    f.schema.depth ≤ fieldDepth fields := by
  induction fields with
  | nil => cases h
  | cons g rest ih =>
    rw [fieldDepth]
    rcases List.mem_cons.mp h with rfl | h
    · exact Nat.le_max_left ..
    · have := ih h
      omega

end Schema

namespace Varint

theorem length_encode_pos (n : Int) : 1 ≤ (encode n).length := by
  rw [encode, encodeNat]
  split <;> simp

end Varint

namespace Value

theorem mapM_zip {β : Type} {fields : List (Field Schema)} {entries : List (String × Value)}
    (heq : entries.map (·.1) = fields.map (·.name)) (g : Field Schema → Decoder β) :
    (fields.zip entries).mapM (fun p => g p.1) = fields.mapM g := by
  conv_rhs => rw [← HasForm.map_fst_zip heq, List.mapM_map]
  rfl

/-! ## Round trip -/

/-- The most levels that reading bytes under a schema takes, if the definitions of the names `used`
were passed since the last byte. -/
def levels (names : Names) (used : List Name) (s : Schema) (b : Bytes) : Nat :=
  b.length * names.total (·.depth + 1) + s.depth + names.spare used

/-- With enough levels the bytes are read as a value like this one. -/
def ReadsBack (names : Names) (used : List Name) (bare : Bool) (s : Schema) (v : Value)
    (b : Bytes) : Prop :=
  ∀ (ns : Namespace) (fuel : Nat), Scope bare ns → levels names used s b ≤ fuel →
    ∃ w, Alike v w ∧ Reads (decodeUpTo Decoder.anyLength fuel names ns s) b w

theorem exists_fuel {names : Names} {used : List Name} {s : Schema} {b : Bytes} {fuel : Nat}
    (h : levels names used s b ≤ fuel) : ∃ n, fuel = n + 1 := by
  have hdepth : 1 ≤ s.depth := by cases s <;> simp [Schema.depth]
  unfold levels at h
  exact ⟨fuel - 1, by omega⟩

theorem length_le_of_mem {part : Bytes} {parts : List Bytes} (h : part ∈ parts) :
    part.length ≤ parts.flatten.length :=
  (List.sublist_flatten_of_mem h).length_le

/-- A byte pays for all definitions to be passed again. -/
theorem levels_behind_byte {names : Names} {used : List Name} {s t : Schema} {b part : Bytes}
    {fuel : Nat} (h : levels names used s b ≤ fuel + 1) (hb : part.length + 1 ≤ b.length)
    (ht : t.depth + 1 ≤ s.depth) : levels names [] t part ≤ fuel := by
  unfold levels at h ⊢
  rw [Names.spare_nil]
  have := Nat.mul_le_mul_right (names.total (·.depth + 1)) hb
  rw [Nat.add_mul] at this
  omega

theorem levels_inside {names : Names} {used : List Name} {s t : Schema} {b part : Bytes}
    {fuel : Nat} (h : levels names used s b ≤ fuel + 1) (hb : part.length ≤ b.length)
    (ht : t.depth + 1 ≤ s.depth) : levels names used t part ≤ fuel := by
  unfold levels at h ⊢
  have := Nat.mul_le_mul_right (names.total (·.depth + 1)) hb
  omega

theorem levels_ref {names : Names} {name : Name} {target : Schema} {used : List Name} {b : Bytes}
    {fuel : Nat} (h : levels names used (.ref name) b ≤ fuel + 1) (hmem : (name, target) ∈ names)
    (hnew : name ∉ used) : levels names (name :: used) target b ≤ fuel := by
  unfold levels at h ⊢
  have := Names.spare_cons hmem hnew
  have : 1 ≤ (Schema.ref name).depth := by simp [Schema.depth]
  omega

theorem readsBack_of_reads {names : Names} {used : List Name} {bare : Bool} {s : Schema}
    {v w : Value} {b : Bytes} (hw : Alike v w)
    (h : ∀ ns fuel, Reads (decodeUpTo Decoder.anyLength (fuel + 1) names ns s) b w) :
    ReadsBack names used bare s v b := by
  intro ns fuel _ hfuel
  obtain ⟨fuel, rfl⟩ := exists_fuel hfuel
  exact ⟨w, hw, h ns fuel⟩

/-- Decimals are read with their number, over a fixed in its size. -/
theorem readsBack_decimal {names : Names} {used : List Name} {bare : Bool} {ns : Namespace}
    {base : DecimalBase} {precision scale : Nat} {d b : Bytes} (hd : d.length < Capacity.limit)
    (h : encode (.decimal d) names ns (.decimal base precision scale) = .done b) :
    ReadsBack names used bare (.decimal base precision scale) (.decimal d) b := by
  cases base with
  | bytes =>
    cases h
    exact readsBack_of_reads (.refl _) fun _ _ => (Decoder.reads_bytes hd).map _
  | fixed name size =>
    replace h : encodeLeaf (.decimal (.fixed name size) precision scale) (.decimal d) = .done b := h
    rw [encodeLeaf] at h
    split at h
    · rename_i wide hwide
      cases h
      obtain ⟨rfl, hint⟩ := Decimal.widen_spec hwide
      have hlike : Alike (.decimal d) (.decimal b) := .decimal hint.symm
      refine readsBack_of_reads hlike fun ns fuel => ?_
      exact (Decoder.reads_take _).map _
    · cases h

theorem readsBack_leaf {names : Names} {used : List Name} {bare : Bool} {ns : Namespace}
    {s : Schema} {v : Value} {b : Bytes} (h : HasForm true names s v) (hs : s.isLeaf)
    (hb : encode v names ns s = .done b) : ReadsBack names used bare s v b := by
  cases h with
  | null =>
    cases hb
    exact readsBack_of_reads (.refl _) fun _ _ => .pure _
  | boolean x =>
    cases hb
    exact readsBack_of_reads (.refl _) fun _ _ => reads_boolean x
  | int n =>
    cases hb
    exact readsBack_of_reads (.refl _) fun _ _ => (Decoder.reads_int32 n).map _
  | long n =>
    cases hb
    exact readsBack_of_reads (.refl _) fun _ _ => (Decoder.reads_int64 n).map _
  | float x =>
    cases hb
    exact readsBack_of_reads (.refl _) fun _ _ => (Decoder.reads_float (by decide) x).map _
  | double x =>
    cases hb
    exact readsBack_of_reads (.refl _) fun _ _ => (Decoder.reads_float (by decide) x).map _
  | bytes hlen =>
    cases hb
    exact readsBack_of_reads (.refl _) fun _ _ => (Decoder.reads_bytes hlen).map _
  | @string t hlen =>
    cases hb
    refine readsBack_of_reads (.refl _) fun _ _ => ?_
    exact (Decoder.reads_text? hlen).bind_end (.pure (Value.string t))
  | enum hget hi =>
    have hread := reads_symbol hget hi
    cases hb
    exact readsBack_of_reads (.refl _) fun _ _ => hread
  | fixed _ hsize =>
    obtain rfl := hsize rfl
    cases hb
    exact readsBack_of_reads (.refl _) fun _ _ => (Decoder.reads_take _).map _
  | decimal hlen => exact readsBack_decimal hlen hb
  | uuid u =>
    cases hb
    exact readsBack_of_reads (.refl _) fun _ _ => Uuid.reads_text u
  | intTime t n =>
    cases hb
    exact readsBack_of_reads (.refl _) fun _ _ => (Decoder.reads_int32 n).map _
  | longTime t n =>
    cases hb
    exact readsBack_of_reads (.refl _) fun _ _ => (Decoder.reads_int64 n).map _
  | duration hlen =>
    have hread : Reads (Decoder.take 12) _ _ := hlen ▸ Decoder.reads_take _
    cases hb
    exact readsBack_of_reads (.refl _) fun _ _ => hread.map _
  | array | map | union | record | ref => cases hs

/-! ### Parts -/

section Parts

variable {names : Names} {used : List Name} {strict bare : Bool} {ns : Namespace} {s : Schema}
  {b : Bytes}

theorem readsBack_array {items : List Value} (hlen : items.length < Capacity.limit)
    (h : encode (.array items) names ns (.array s) = .done b)
    (hitems : ∀ v ∈ items, ∀ piece, encode v names ns s = .done piece →
      ReadsBack names [] bare s v piece) :
    ReadsBack names used bare (.array s) (.array items) b := by
  intro ns' fuel hscope hfuel
  obtain ⟨fuel, rfl⟩ := exists_fuel hfuel
  simp only [encode, encodeThrough, encodings_eq, List.map_map] at h
  obtain ⟨_, _, hopen, ⟨⟩, rfl⟩ := Emission.append_eq_done.mp h
  obtain ⟨_, hconcat, rfl⟩ := Emission.done_append_eq_done.mp hopen
  obtain ⟨pieces, rfl, hpieces⟩ := Emission.concat_map_eq_done hconcat
  have hread : List.Forall₂ (fun v piece => ∃ w, Alike v w ∧
      Reads (decodeUpTo Decoder.anyLength fuel names ns' s) piece w) items pieces := by
    refine forall₂_of_mem hpieces fun v hv piece hpiece henc => ?_
    refine hitems v hv piece henc ns' fuel hscope ?_
    have hshort := length_le_of_mem hpiece
    refine levels_behind_byte hfuel ?_ (Nat.le_refl _)
    rw [List.length_append, List.length_append, List.length_singleton]
    omega
  obtain ⟨ws, hws, hread⟩ := Decoder.reads_block hread hlen
  exact ⟨.array ws, .array hws, hread.map _⟩

theorem readsBack_map {entries : List (String × Value)} (hlen : entries.length < Capacity.limit)
    (hkeys : (entries.map (·.1)).Nodup)
    (htexts : ∀ p ∈ entries, (Bytes.ofText p.1).length < Capacity.limit)
    (h : encode (.map entries) names ns (.map s) = .done b)
    (hentries : ∀ p ∈ entries, ∀ piece, encode p.2 names ns s = .done piece →
      ReadsBack names [] bare s p.2 piece) :
    ReadsBack names used bare (.map s) (.map entries) b := by
  intro ns' fuel hscope hfuel
  obtain ⟨fuel, rfl⟩ := exists_fuel hfuel
  simp only [encode, encodeThrough, entryEncodings_eq, List.map_map] at h
  obtain ⟨_, _, hopen, ⟨⟩, rfl⟩ := Emission.append_eq_done.mp h
  obtain ⟨_, hconcat, rfl⟩ := Emission.done_append_eq_done.mp hopen
  obtain ⟨pieces, rfl, hpieces⟩ := Emission.concat_map_eq_done hconcat
  have hread : List.Forall₂ (fun p piece => ∃ q : String × Value, (p.1 = q.1 ∧ Alike p.2 q.2) ∧
      Reads (decodeEntry Decoder.anyLength (decodeUpTo Decoder.anyLength fuel names ns' s)) piece
        q) entries pieces := by
    refine forall₂_of_mem hpieces fun p hp piece hpiece henc => ?_
    obtain ⟨content, hcontent, rfl⟩ := Emission.done_append_eq_done.mp henc
    have hshort := length_le_of_mem hpiece
    rw [List.length_append] at hshort
    have hlevels : levels names [] s content ≤ fuel := by
      refine levels_behind_byte hfuel ?_ (Nat.le_refl _)
      rw [List.length_append, List.length_append, List.length_singleton]
      omega
    obtain ⟨w, hw, hreads⟩ := hentries p hp content hcontent ns' fuel hscope hlevels
    refine ⟨(p.1, w), ⟨rfl, hw⟩, ?_⟩
    exact (Decoder.reads_text? (htexts p hp)).bind (hreads.bind_end (.pure (p.1, w)))
  obtain ⟨ws, hws, hread⟩ := Decoder.reads_block hread hlen
  have hsame : entries.map (·.1) = ws.map (·.1) := by
    rw [← List.forall₂_eq_eq_eq, List.forall₂_map_left_iff, List.forall₂_map_right_iff]
    exact hws.imp fun p q h => h.1
  refine ⟨.map ws, .map hsame ?_, ?_⟩
  · rw [List.forall₂_map_left_iff, List.forall₂_map_right_iff]
    exact hws.imp fun p q h => h.2
  · have hmap := hread.map ofEntries
    rw [ofEntries_nodup (hsame ▸ hkeys)] at hmap
    exact hmap

theorem readsBack_union {branches : List Schema} {i : Nat} {branch : Schema} {v : Value}
    (hget : branches[i]? = some branch) (hi : i < Capacity.limit)
    (h : encode (.union i v) names ns (.union branches) = .done b)
    (hbranch : ∀ piece, encode v names ns branch = .done piece →
      ReadsBack names [] bare branch v piece) :
    ReadsBack names used bare (.union branches) (.union i v) b := by
  intro ns' fuel hscope hfuel
  obtain ⟨fuel, rfl⟩ := exists_fuel hfuel
  simp only [encode, encodeThrough, hget] at h
  obtain ⟨piece, hpiece, rfl⟩ := Emission.done_append_eq_done.mp h
  have hlevels : levels names [] branch piece ≤ fuel := by
    refine levels_behind_byte hfuel ?_ ?_
    · have := Varint.length_encode_pos i
      rw [List.length_append]
      omega
    · have := Schema.depth_le_branchDepth (List.mem_of_getElem? hget)
      simp only [Schema.depth]
      omega
  obtain ⟨w, hw, hread⟩ := hbranch piece hpiece ns' fuel hscope hlevels
  refine ⟨.union i w, .union i hw, ?_⟩
  refine (Decoder.reads_natural? hi).bind ?_
  have hneg : ¬ ((i : Int) < 0) := by omega
  simp only [if_neg hneg, Int.toNat_natCast, hget]
  exact hread.map _

theorem readsBack_record {name : Name} {fields : List (Field Schema)}
    {entries : List (String × Value)} (hs : Schema.fieldsRegular strict name.ns.isNone fields)
    (hnamed : bare || name.ns.isSome) (hscope : Scope bare ns)
    (heq : entries.map (·.1) = fields.map (·.name))
    (h : encode (.record entries) names ns (.record name fields) = .done b)
    (hfields : ∀ p ∈ fields.zip entries, ∀ piece,
      encode p.2.2 names name.ns p.1.schema = .done piece →
        ReadsBack names used name.ns.isNone p.1.schema p.2.2 piece) :
    ReadsBack names used bare (.record name fields) (.record entries) b := by
  intro ns' fuel hscope' hfuel
  obtain ⟨fuel, rfl⟩ := exists_fuel hfuel
  simp only [encode, encodeThrough, Name.qualify_of_regular hscope hnamed] at h
  obtain ⟨pieces, rfl, hpieces⟩ := encodeFields_parts hs heq h
  have hns : (name.qualify ns').ns = name.ns := by rw [Name.qualify_of_regular hscope' hnamed]
  have hread : List.Forall₂ (fun (p : Field Schema × String × Value) piece =>
      ∃ q : String × Value, (p.2.1 = q.1 ∧ Alike p.2.2 q.2) ∧
        Reads (do return (p.1.name,
          ← decodeUpTo Decoder.anyLength fuel names (name.qualify ns').ns p.1.schema)) piece q)
      (fields.zip entries) pieces := by
    refine forall₂_of_mem hpieces fun p hp piece hpiece henc => ?_
    have hlevels : levels names used p.1.schema piece ≤ fuel := by
      refine levels_inside hfuel (length_le_of_mem hpiece) ?_
      have := Schema.depth_le_fieldDepth (List.of_mem_zip hp).1
      simp only [Schema.depth]
      omega
    obtain ⟨w, hw, hreads⟩ := hfields p hp piece henc name.ns fuel (Scope.named name) hlevels
    rw [hns]
    exact ⟨(p.1.name, w), ⟨HasForm.name_eq heq hp, hw⟩, hreads.bind_end (.pure (p.1.name, w))⟩
  obtain ⟨ws, hws, hread⟩ := Decoder.reads_steps hread
  have hsame : entries.map (·.1) = ws.map (·.1) := by
    conv_lhs => rw [← HasForm.map_snd_zip heq, List.map_map]
    rw [← List.forall₂_eq_eq_eq, List.forall₂_map_left_iff, List.forall₂_map_right_iff]
    exact hws.imp fun p q h => h.1
  refine ⟨.record ws, .record hsame ?_, ?_⟩
  · rw [← HasForm.map_snd_zip heq, List.map_map, List.forall₂_map_left_iff,
      List.forall₂_map_right_iff]
    exact hws.imp fun p q h => h.2
  · have hall := mapM_zip heq fun field => do
      return (field.name,
        ← decodeUpTo Decoder.anyLength fuel names (name.qualify ns').ns field.schema)
    exact (hall ▸ hread).map Value.record

end Parts

theorem readsBack_encode {names : Names} {strict : Bool} {depth : Nat}
    (hnames : names.Regular strict depth) {s : Schema} {v : Value} (h : HasForm true names s v) :
    ∀ {bare : Bool} {ns : Namespace} {used : List Name} {b : Bytes}, s.isRegular strict bare →
      Scope bare ns →
      (∀ n ∈ used, Relation.TransGen (Schema.Inlines names) (.ref n) s) →
      encode v names ns s = .done b → ReadsBack names used bare s v b := by
  induction h with
  | array hlen _ ih =>
    intro bare ns used b hs hscope _ hb
    exact readsBack_array hlen hb fun v hv piece hpiece =>
      ih v hv hs hscope (fun _ h => by cases h) hpiece
  | map hlen hkeys htexts _ ih =>
    intro bare ns used b hs hscope _ hb
    exact readsBack_map hlen hkeys htexts hb fun p hp piece hpiece =>
      ih p hp hs hscope (fun _ h => by cases h) hpiece
  | union hget hi _ ih =>
    intro bare ns used b hs hscope _ hb
    simp only [Schema.isRegular, Bool.and_eq_true] at hs
    have hbranch := Schema.branchesRegular_iff.mp hs.2 _ (List.mem_of_getElem? hget)
    exact readsBack_union hget hi hb fun piece hpiece =>
      ih hbranch hscope (fun _ h => by cases h) hpiece
  | record heq _ ih =>
    intro bare ns used b hs hscope hused hb
    simp only [Schema.isRegular, Bool.and_eq_true] at hs
    refine readsBack_record hs.2 hs.1 hscope heq hb fun p hp piece hpiece => ?_
    have hfield := (List.of_mem_zip hp).1
    exact ih p hp (Schema.regular_of_mem hs.2 p.1 hfield).1 (Scope.named _)
      (fun n hn => (hused n hn).tail (.field hfield)) hpiece
  | @ref name target v hf hform ih =>
    intro bare ns used b hs hscope hused hb ns' fuel hscope' hfuel
    obtain ⟨fuel, rfl⟩ := exists_fuel hfuel
    simp only [Schema.isRegular] at hs
    obtain ⟨hd, htarget, -⟩ := hnames.find? hf
    have hq := Name.qualify_of_regular hscope hs
    rw [encode_ref hq hf hd] at hb
    -- A name that was passed since the last byte would make a cycle.
    have hnew : name ∉ used := by
      intro hmem
      exact Schema.not_hasForm_of_cycle hnames (hused name hmem) v (.ref hf hform)
    have hpath : ∀ n ∈ name :: used,
        Relation.TransGen (Schema.Inlines names) (.ref n) target := by
      intro n hn
      rcases List.mem_cons.mp hn with rfl | hn
      · exact .single (.ref hf)
      · exact (hused n hn).tail (.ref hf)
    have hmem : (name, target) ∈ names := by
      obtain ⟨l₁, l₂, rfl, -⟩ := List.lookup_eq_some_iff.mp hf
      simp
    obtain ⟨w, hw, hread⟩ := ih htarget (hscope.kept hs) hpath hb name.ns fuel (Scope.named name)
      (levels_ref hfuel hmem hnew)
    refine ⟨w, hw, fun rest => ?_⟩
    have hq' := Name.qualify_of_regular hscope' hs
    simp only [decodeUpTo, hq', hf]
    exact hread rest
  | _ =>
    intro bare ns used b _ _ _ hb
    exact readsBack_leaf (by constructor <;> assumption) rfl hb

/-- What is read back with enough levels is read back under a schema that stands alone. -/
theorem decodeWithin_of_readsBack {bare : Bool} {s : Schema} {names : Names} {v : Value} {b : Bytes}
    (hnames : s.names = .ok names) (hscope : Scope bare s.ns)
    (h : ReadsBack names [] bare s v b) (rest : Bytes) :
    ∃ w, Alike v w ∧ decodeWithin Decoder.anyLength s (b ++ rest) = .ok w rest := by
  have hlevels : levels names [] s b ≤ decodeDepth names s (b ++ rest) := by
    have hle : b.length ≤ (b ++ rest).length := by simp
    unfold levels decodeDepth
    rw [Names.spare_nil]
    generalize names.total (·.depth + 1) = width
    have hwidth : width ≤ s.depth + width + 1 := by omega
    have := Nat.mul_le_mul hle hwidth
    rw [Nat.add_mul, Nat.one_mul]
    omega
  obtain ⟨w, hw, hread⟩ := h s.ns _ hscope hlevels
  refine ⟨w, hw, ?_⟩
  rw [decodeWithin, hnames]
  exact hread rest

/-- A value is read back from what is written for it, whatever follows. -/
theorem decodeWithin_encode {strict : Bool} {s : Schema} {names : Names}
    (hs : s.regularAlone strict) (hnames : s.names = .ok names) {v : Value}
    (h : HasForm true names s v) {b : Bytes} (hb : encode v names s.ns s = .done b) (rest : Bytes) :
    ∃ w, Alike v w ∧ decodeWithin Decoder.anyLength s (b ++ rest) = .ok w rest :=
  decodeWithin_of_readsBack hnames (Scope.alone s)
    (readsBack_encode (Schema.names_regular hs hnames) h hs (Scope.alone s) (by nofun) hb) rest

end Value
end RecordTape
