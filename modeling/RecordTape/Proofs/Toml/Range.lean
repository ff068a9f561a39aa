import RecordTape.TopicFile
import RecordTape.Proofs.Outcome
import RecordTape.Proofs.Serializer.Invariant
/-!
# Integers of a TOML text

An integer of TOML is one of 64 bits, and the tree of a text has no others, wherever they stand
(`parse_bounded`): what scans items takes bounded ones, and what builds tables keeps them. A size
that a topic file sets is such an integer, so that there is room for it (`TopicConfig.parse_roomy`).
-/

namespace RecordTape

namespace Toml

/-- What each step of a fold keeps, the fold keeps. -/
theorem foldlM_keeps {σ α : Type} {step : σ → α → Option σ} {p : σ → Prop} {items : List α}
    (hstep : ∀ a ∈ items, ∀ s s', p s → step s a = some s' → p s') {s s' : σ} (hs : p s)
    (h : items.foldlM step s = some s') : p s' := by
  induction items generalizing s with
  | nil => cases h; exact hs
  | cons a rest ih =>
    obtain ⟨hfirst, hrest⟩ := List.forall_mem_cons.mp hstep
    rw [List.foldlM_cons] at h
    obtain ⟨next, hnext, h⟩ := Option.bind_eq_some_iff.mp h
    exact ih hrest (hfirst _ _ hs hnext) h

/-- Every integer in the item is below the bound of 64 bits. -/
inductive Item.Bounded : Item → Prop
  | string (s : String) : Bounded (.string s)
  | integer {n : Int} : n < int64Bound → Bounded (.integer n)
  | float : Bounded .float
  | boolean (b : Bool) : Bounded (.boolean b)
  | moment : Bounded .moment
  | array {items : List Item} : (∀ item ∈ items, Bounded item) → Bounded (.array items)
  | table {origin : Origin} {entries : List (String × Item)} :
    (∀ e ∈ entries, Bounded e.2) → Bounded (.table origin entries)
  | tables {latestFirst : List (List (String × Item))} :
    (∀ entries ∈ latestFirst, ∀ e ∈ entries, Bounded e.2) → Bounded (.tables latestFirst)

namespace Entries

/-- Every integer in the entries is below the bound of 64 bits. -/
def Bounded (entries : Entries) : Prop := ∀ e ∈ entries, e.2.Bounded

variable {entries after : Entries} {key : String} {item : Item}

theorem bounded_nil : Bounded [] := nofun

theorem Bounded.snoc (h : Bounded entries) (hitem : item.Bounded) :
    Bounded (entries ++ [(key, item)]) := by
  intro e he
  rcases List.mem_append.mp he with he | he
  · exact h e he
  · cases List.mem_singleton.mp he
    exact hitem

theorem Bounded.lookup (h : Bounded entries) (hkey : entries.lookup key = some item) :
    item.Bounded := by
  obtain ⟨before, behind, rfl, -⟩ := List.lookup_eq_some_iff.mp hkey
  exact h _ (List.mem_append_right before List.mem_cons_self)

theorem Bounded.put (h : Bounded entries) (hitem : item.Bounded) :
    Bounded (entries.put key item) := by
  induction entries with
  | nil => exact List.forall_mem_singleton.mpr hitem
  | cons e rest ih =>
    obtain ⟨hfirst, hrest⟩ := List.forall_mem_cons.mp h
    unfold Entries.put
    split
    · exact List.forall_mem_cons.mpr ⟨hitem, hrest⟩
    · exact List.forall_mem_cons.mpr ⟨hfirst, ih hrest⟩

theorem Bounded.add (h : Bounded entries) (hitem : item.Bounded)
    (hadd : entries.add key item = some after) : Bounded after := by
  unfold Entries.add at hadd
  split at hadd
  · cases hadd
  · cases hadd
    exact h.snoc hitem

/-- A table on the way of a path, from the entries in which it was found. -/
theorem Bounded.inner {origin : Origin} {inner : Entries} (h : Bounded entries)
    (hkey : entries.lookup key = some (.table origin inner)) : Bounded inner := by
  cases h.lookup hkey with
  | table hinner => exact hinner

theorem Bounded.latest {latest : Entries} {earlier : List Entries} (h : Bounded entries)
    (hkey : entries.lookup key = some (.tables (latest :: earlier))) :
    Bounded latest ∧ ∀ es ∈ earlier, Bounded es := by
  cases h.lookup hkey with
  | tables hall => exact List.forall_mem_cons.mp hall

theorem Bounded.addDotted {path : List String} (h : Bounded entries) (hitem : item.Bounded)
    (hadd : Entries.addDotted item path entries = some after) : Bounded after := by
  induction path generalizing entries after with
  | nil => cases hadd
  | cons key rest ih =>
    cases rest with
    | nil => exact h.add hitem hadd
    | cons next rest =>
      unfold Entries.addDotted at hadd
      split at hadd
      · obtain ⟨inner, hinner, ⟨⟩⟩ := Option.bind_eq_some_iff.mp hadd
        exact h.snoc (.table (ih bounded_nil hinner))
      · obtain ⟨inner, hinner, ⟨⟩⟩ := Option.bind_eq_some_iff.mp hadd
        exact h.put (.table (ih (h.inner ‹_›) hinner))
      · split at hadd
        · cases hadd
        · obtain ⟨inner, hinner, ⟨⟩⟩ := Option.bind_eq_some_iff.mp hadd
          exact h.put (.table (ih (h.inner ‹_›) hinner))
      · split at hadd
        · cases hadd
        · obtain ⟨latest, hlatest, ⟨⟩⟩ := Option.bind_eq_some_iff.mp hadd
          obtain ⟨hbefore, hearlier⟩ := h.latest ‹_›
          exact h.put (.tables (List.forall_mem_cons.mpr ⟨ih hbefore hlatest, hearlier⟩))
      · cases hadd

theorem Bounded.changeAt {change : Entries → Option Entries} {path : List String}
    (h : Bounded entries)
    (hchange : ∀ before after, Bounded before → change before = some after → Bounded after)
    (hadd : Entries.changeAt change path entries = some after) : Bounded after := by
  induction path generalizing entries after with
  | nil => exact hchange _ _ h hadd
  | cons key rest ih =>
    unfold Entries.changeAt at hadd
    split at hadd
    · obtain ⟨inner, hinner, ⟨⟩⟩ := Option.bind_eq_some_iff.mp hadd
      exact h.snoc (.table (ih bounded_nil hinner))
    · cases hadd
    · obtain ⟨inner, hinner, ⟨⟩⟩ := Option.bind_eq_some_iff.mp hadd
      exact h.put (.table (ih (h.inner ‹_›) hinner))
    · obtain ⟨latest, hlatest, ⟨⟩⟩ := Option.bind_eq_some_iff.mp hadd
      obtain ⟨hbefore, hearlier⟩ := h.latest ‹_›
      exact h.put (.tables (List.forall_mem_cons.mpr ⟨ih hbefore hlatest, hearlier⟩))
    · cases hadd

theorem Bounded.openTable (h : Bounded entries)
    (hopen : Entries.openTable key entries = some after) : Bounded after := by
  unfold Entries.openTable at hopen
  split at hopen <;> cases hopen
  · exact h.snoc (.table bounded_nil)
  · exact h.put (.table (h.inner ‹_›))

theorem Bounded.openNext (h : Bounded entries)
    (hopen : Entries.openNext key entries = some after) : Bounded after := by
  unfold Entries.openNext at hopen
  split at hopen <;> cases hopen
  · exact h.snoc (.tables (List.forall_mem_singleton.mpr bounded_nil))
  · rename_i earlier hkey
    cases h.lookup hkey with
    | tables hearlier => exact h.put (.tables (List.forall_mem_cons.mpr ⟨bounded_nil, hearlier⟩))

theorem ofPairs_bounded {pairs : List (List String × Item)} (h : ∀ p ∈ pairs, p.2.Bounded)
    (hpairs : ofPairs pairs = some after) : Bounded after :=
  foldlM_keeps (fun p hp _ _ hentries hadd => hentries.addDotted (h p hp) hadd) bounded_nil hpairs

end Entries

/-! ## Statements -/

namespace Statement

/-- The item of the statement, if it has one, is bounded. -/
def Bounded : Statement → Prop
  | .pair _ item => item.Bounded
  | .table _ | .nextTable _ => True

end Statement

namespace Document

theorem step_bounded {d d' : Document} {s : Statement} (hd : Entries.Bounded d.root)
    (hs : s.Bounded) (h : d.step s = some d') : Entries.Bounded d'.root := by
  cases s with
  | table path =>
    obtain ⟨key, -, h⟩ := Option.bind_eq_some_iff.mp h
    obtain ⟨root, hroot, ⟨⟩⟩ := Option.bind_eq_some_iff.mp h
    exact hd.changeAt (fun _ _ hbefore hopen => hbefore.openTable hopen) hroot
  | nextTable path =>
    obtain ⟨key, -, h⟩ := Option.bind_eq_some_iff.mp h
    obtain ⟨root, hroot, ⟨⟩⟩ := Option.bind_eq_some_iff.mp h
    exact hd.changeAt (fun _ _ hbefore hopen => hbefore.openNext hopen) hroot
  | pair path item =>
    obtain ⟨root, hroot, ⟨⟩⟩ := Option.bind_eq_some_iff.mp h
    exact hd.changeAt (fun _ _ hbefore hadd => hbefore.addDotted hs hadd) hroot

theorem ofStatements_bounded {statements : List Statement} {root : Entries}
    (hs : ∀ s ∈ statements, s.Bounded) (h : ofStatements statements = some root) :
    Entries.Bounded root := by
  obtain ⟨d, hd, rfl⟩ := Option.map_eq_some_iff.mp h
  exact foldlM_keeps (p := fun d => Entries.Bounded d.root)
    (fun s hmem _ _ hd hstep => step_bounded hd (hs s hmem) hstep) Entries.bounded_nil hd

end Document

/-! ## Scanners -/

/-- All that a scanner takes from the front of a text has a property. -/
def Scanner.Yields {α : Type} (scan : Scanner α) (p : α → Prop) : Prop :=
  ∀ cs a rest, scan cs = some (a, rest) → p a

theorem inRange_lt {n m : Int} (h : inRange n = some m) : m < int64Bound := by
  unfold inRange at h
  split at h
  · cases h
    exact And.right ‹_›
  · cases h

theorem integer?_lt {word : List Char} {n : Int} (h : integer? word = some n) : n < int64Bound := by
  unfold integer? at h
  split at h <;>
  · obtain ⟨_, -, hrange⟩ := Option.bind_eq_some_iff.mp h
    exact inRange_lt hrange

theorem ofWord_bounded {word : List Char} {item : Item} (h : ofWord word = some item) :
    item.Bounded := by
  unfold ofWord at h
  split at h
  · cases h; exact .boolean true
  split at h
  · cases h; exact .boolean false
  split at h
  · cases h; exact .moment
  split at h
  · cases h; exact .float
  · obtain ⟨n, hn, rfl⟩ := Option.map_eq_some_iff.mp h
    exact .integer (integer?_lt hn)

theorem scalar_bounded : Scanner.Yields scalar Item.Bounded := by
  intro cs item rest h
  unfold scalar at h
  split at h
  · cases h
    exact .string _
  · obtain ⟨item, hitem, ⟨⟩⟩ := Option.bind_eq_some_iff.mp h
    exact ofWord_bounded hitem

section Containers

variable {scan : Scanner Item}

theorem arrayItems_bounded (hscan : Scanner.Yields scan Item.Bounded) (limit : Nat) :
    Scanner.Yields (arrayItems scan limit) (∀ item ∈ ·, item.Bounded) := by
  induction limit with
  | zero => intro cs items rest h; cases h
  | succ limit ih =>
    intro cs items rest h
    unfold arrayItems at h
    split at h
    · cases h
      nofun
    · obtain ⟨⟨first, behind⟩, hfirst, h⟩ := Option.bind_eq_some_iff.mp h
      simp only at h
      split at h
      · obtain ⟨⟨others, rest⟩, hothers, ⟨⟩⟩ := Option.bind_eq_some_iff.mp h
        exact List.forall_mem_cons.mpr ⟨hscan _ _ _ hfirst, ih _ _ _ hothers⟩
      · cases h
        exact List.forall_mem_singleton.mpr (hscan _ _ _ hfirst)
      · cases h

theorem pair_bounded (hscan : Scanner.Yields scan Item.Bounded) :
    Scanner.Yields (pair scan) (·.2.Bounded) := by
  intro cs p rest h
  obtain ⟨⟨path, behind⟩, -, h⟩ := Option.bind_eq_some_iff.mp h
  obtain ⟨behind, -, h⟩ := Option.bind_eq_some_iff.mp h
  obtain ⟨⟨item, behind⟩, hitem, ⟨⟩⟩ := Option.bind_eq_some_iff.mp h
  exact hscan _ _ _ hitem

theorem inlinePairs_bounded (hscan : Scanner.Yields scan Item.Bounded) (limit : Nat) :
    Scanner.Yields (inlinePairs scan limit) (∀ p ∈ ·, p.2.Bounded) := by
  induction limit with
  | zero => intro cs pairs rest h; cases h
  | succ limit ih =>
    intro cs pairs rest h
    obtain ⟨⟨first, behind⟩, hfirst, h⟩ := Option.bind_eq_some_iff.mp h
    simp only at h
    split at h
    · obtain ⟨⟨others, rest⟩, hothers, ⟨⟩⟩ := Option.bind_eq_some_iff.mp h
      exact List.forall_mem_cons.mpr ⟨pair_bounded hscan _ _ _ hfirst, ih _ _ _ hothers⟩
    · cases h
      exact List.forall_mem_singleton.mpr (pair_bounded hscan _ _ _ hfirst)
    · cases h

end Containers

theorem value_bounded (depth : Nat) : Scanner.Yields (value depth) Item.Bounded := by
  induction depth with
  | zero => exact scalar_bounded
  | succ depth ih =>
    intro cs item rest h
    unfold value at h
    split at h
    · obtain ⟨⟨items, behind⟩, hitems, ⟨⟩⟩ := Option.bind_eq_some_iff.mp h
      exact .array (arrayItems_bounded ih _ _ _ _ hitems)
    · split at h
      · cases h
        exact .table Entries.bounded_nil
      · obtain ⟨⟨pairs, behind⟩, hpairs, h⟩ := Option.bind_eq_some_iff.mp h
        obtain ⟨entries, hentries, ⟨⟩⟩ := Option.bind_eq_some_iff.mp h
        exact .table (Entries.ofPairs_bounded (inlinePairs_bounded ih _ _ _ _ hpairs) hentries)
    · exact scalar_bounded _ _ _ h

theorem statement_bounded : Scanner.Yields statement Statement.Bounded := by
  intro cs s rest h
  unfold statement at h
  split at h
  · obtain ⟨⟨path, behind⟩, -, h⟩ := Option.bind_eq_some_iff.mp h
    obtain ⟨behind, -, h⟩ := Option.bind_eq_some_iff.mp h
    obtain ⟨behind, -, ⟨⟩⟩ := Option.bind_eq_some_iff.mp h
    trivial
  · obtain ⟨⟨path, behind⟩, -, h⟩ := Option.bind_eq_some_iff.mp h
    obtain ⟨behind, -, ⟨⟩⟩ := Option.bind_eq_some_iff.mp h
    trivial
  · obtain ⟨⟨⟨path, item⟩, behind⟩, hitem, ⟨⟩⟩ := Option.bind_eq_some_iff.mp h
    exact pair_bounded (value_bounded greatestDepth) _ _ _ hitem

theorem statements_bounded {limit : Nat} {cs : List Char} {found : List Statement}
    (h : statements limit cs = some found) : ∀ s ∈ found, s.Bounded := by
  induction limit generalizing cs found with
  | zero => cases h
  | succ limit ih =>
    unfold statements at h
    split at h
    · cases h
      nofun
    · exact ih h
    · obtain ⟨⟨first, behind⟩, hfirst, h⟩ := Option.bind_eq_some_iff.mp h
      have hfirst := statement_bounded _ _ _ hfirst
      obtain ⟨behind, -, h⟩ := Option.bind_eq_some_iff.mp h
      split at h
      · cases h
        exact List.forall_mem_singleton.mpr hfirst
      · obtain ⟨others, hothers, ⟨⟩⟩ := Option.bind_eq_some_iff.mp h
        exact List.forall_mem_cons.mpr ⟨hfirst, ih hothers⟩

/-- The tree of a text has no integer beyond 64 bits. -/
theorem parse_bounded {text : String} {root : Entries} (h : parse text = some root) :
    Entries.Bounded root := by
  obtain ⟨found, hfound, hroot⟩ := Option.bind_eq_some_iff.mp h
  exact Document.ofStatements_bounded (statements_bounded hfound) hroot

theorem Item.Bounded.toNat?_lt {item : Item} (h : item.Bounded) {n : Nat}
    (hn : item.toNat? = some n) : n < Capacity.limit := by
  cases h with
  | integer hlt =>
    simp only [Item.toNat?] at hn
    split at hn
    · cases hn
      rw [Int.toNat_lt ‹_›]
      exact hlt
    · cases hn
  | _ => cases hn

end Toml

/-! ## The tuning in a topic file -/

namespace SerializerConfig

open Toml

/-- Room can be set aside for the buffer and for the bytes of a key. -/
structure Sized (c : SerializerConfig) : Prop where
  buffer : c.encoderBufferSize < Capacity.limit
  key : c.Roomy

theorem default_sized : default.Sized := ⟨by decide, by decide⟩

theorem setting_lt {fallback : Nat} {item : Option Item} {n : Nat}
    (hitem : ∀ i ∈ item, i.Bounded) (hfallback : fallback < Capacity.limit)
    (h : setting Item.toNat? fallback item = some n) : n < Capacity.limit := by
  cases item with
  | none => cases h; exact hfallback
  | some i => exact (hitem i rfl).toNat?_lt h

theorem ofSettings_sized {size capacity memoize : Option Item} {c : SerializerConfig}
    (hsize : ∀ i ∈ size, i.Bounded) (hcapacity : ∀ i ∈ capacity, i.Bounded)
    (h : ofSettings size capacity memoize = some c) : c.Sized := by
  obtain ⟨buffer, hbuffer, h⟩ := Option.bind_eq_some_iff.mp h
  obtain ⟨key, hkey, h⟩ := Option.bind_eq_some_iff.mp h
  obtain ⟨memoize, -, ⟨⟩⟩ := Option.bind_eq_some_iff.mp h
  exact ⟨setting_lt hsize (by decide) hbuffer, setting_lt hcapacity (by decide) hkey⟩

theorem ofItem_sized {item : Item} {c : SerializerConfig} (hitem : item.Bounded)
    (h : ofItem item = some c) : c.Sized := by
  cases hitem with
  | table hentries =>
    exact ofSettings_sized (fun _ hi => Entries.Bounded.lookup hentries hi)
      (fun _ hi => Entries.Bounded.lookup hentries hi) h
  | array hitems =>
    exact ofSettings_sized (fun _ hi => hitems _ (List.mem_of_getElem? hi))
      (fun _ hi => hitems _ (List.mem_of_getElem? hi)) h
  | @tables latestFirst hall =>
    have hitems : ∀ i ∈ latestFirst.reverse.map (Item.table .header), i.Bounded := by
      intro i hi
      obtain ⟨entries, hentries, rfl⟩ := List.mem_map.mp hi
      exact .table (hall entries (List.mem_reverse.mp hentries))
    exact ofSettings_sized (fun _ hi => hitems _ (List.mem_of_getElem? hi))
      (fun _ hi => hitems _ (List.mem_of_getElem? hi)) h
  | moment => cases h; exact default_sized
  | _ => cases h

end SerializerConfig

namespace TopicConfig

theorem ofEntries_sized {root : Toml.Entries} (hroot : Toml.Entries.Bounded root)
    {config : TopicConfig} (h : ofEntries root = some config) : config.serializer.Sized := by
  obtain ⟨_, -, h⟩ := Option.bind_eq_some_iff.mp h
  obtain ⟨name, -, h⟩ := Option.bind_eq_some_iff.mp h
  obtain ⟨_, -, h⟩ := Option.bind_eq_some_iff.mp h
  obtain ⟨keySchema, -, h⟩ := Option.bind_eq_some_iff.mp h
  obtain ⟨_, -, h⟩ := Option.bind_eq_some_iff.mp h
  obtain ⟨valueSchema, -, h⟩ := Option.bind_eq_some_iff.mp h
  obtain ⟨serializer, hserializer, ⟨⟩⟩ := Option.bind_eq_some_iff.mp h
  cases hitem : root.lookup "serializer" with
  | none =>
    rw [hitem] at hserializer
    cases hserializer
    exact SerializerConfig.default_sized
  | some item =>
    rw [hitem] at hserializer
    exact SerializerConfig.ofItem_sized (hroot.lookup hitem) hserializer

/-- A topic file that is accepted asks for a buffer that is not empty, and for no room that there is
not. -/
theorem parse_sized {text : String} {config : TopicConfig} (h : parse text = .ok config) :
    config.serializer.validate = .ok () ∧ config.serializer.Sized := by
  unfold parse at h
  split at h
  · cases h
  · rename_i c hc
    obtain ⟨root, hroot, hc⟩ := Option.bind_eq_some_iff.mp hc
    obtain ⟨⟨⟩, hvalid, ⟨⟩⟩ := Outcome.bind_eq_ok.mp h
    exact ⟨hvalid, ofEntries_sized (Toml.parse_bounded hroot) hc⟩

end TopicConfig

theorem exists_of_parseFile {α : Type} {parse : String → Except ConfigFailure α}
    {content : Except IoError Bytes} {a : α} (h : parseFile parse content = .ok a) :
    ∃ text, parse text = .ok a := by
  unfold parseFile at h
  split at h
  · cases h
  · split at h
    · cases h
    · rename_i text _
      cases ha : parse text with
      | error e => rw [ha] at h; cases h
      | ok b => rw [ha] at h; cases h; exact ⟨text, ha⟩

end RecordTape
