import RecordTape.Proofs.Value.Resolved
import RecordTape.Proofs.Value.Standing
import RecordTape.Proofs.Writer.ReadBack
/-!
# Integers in narrow slots

Resolution cuts a long down to an int where the schema asks for one, and the check that follows
refuses every int that is not its long. The items of an array that becomes bytes are cut down as
well before they are held against the range of a byte, and of these the check sees nothing.
-/

namespace RecordTape

namespace Slot

/-- What the slot has for an integer. -/
def stored : Slot → Int → Int
  | int, n => n
  | byte, n => n % 0x100000000

/-- The integers that stay what they are in the slot. -/
def Keeps : Slot → Int → Prop
  | int, _ => True
  | byte, n => 0 ≤ n ∧ n < 256

end Slot

namespace Value

/-! ## Ints and the check -/

theorem bare_of_content {v w : Value} (h : v.content = w) (hw : w.isUnion = false) :
    v.bare = w := by
  subst h
  cases v with
  | union i v => cases v <;> first | rfl | cases hw
  | _ => rfl

/-- The int in a slot is one of those that stand there. -/
theorem mem_intsAt_of_slotAt {v : Value} {path : List Step} {m : Int}
    (h : v.slotAt path = some (.int, m)) : ∃ i ∈ v.intsAt path, m = i.toInt := by
  induction path generalizing v with
  | nil =>
    rw [slotAt] at h
    cases hv : v.content with
    | int i | intTime t i =>
      rw [hv] at h
      cases h
      exact ⟨i, mem_intsAt_nil.mpr (by rw [bare_of_content hv rfl]; rfl), rfl⟩
    | _ => rw [hv] at h; cases h
  | cons step path ih =>
    cases step with
    | item k =>
      rw [slotAt] at h
      cases hv : v.content with
      | array items =>
        rw [hv] at h
        obtain ⟨r, hr, h⟩ := Option.bind_eq_some_iff.mp h
        obtain ⟨i, hi, hm⟩ := ih h
        exact ⟨i, mem_intsAt_item.mpr ⟨items, r, bare_of_content hv rfl, hr, hi⟩, hm⟩
      | bytes b =>
        simp only [hv] at h
        split at h
        · obtain ⟨_, -, heq⟩ := Option.map_eq_some_iff.mp h
          cases heq
        · cases h
      | _ => rw [hv] at h; cases h
    | member name =>
      rw [slotAt] at h
      cases hv : v.content with
      | map entries | record entries =>
        rw [hv] at h
        obtain ⟨r, hr, h⟩ := Option.bind_eq_some_iff.mp h
        obtain ⟨i, hi, hm⟩ := ih h
        refine ⟨i, mem_intsAt_member.mpr ⟨entries, r, ?_, mem_of_lookup hr, hi⟩, hm⟩
        rw [bare_of_content hv rfl]
        simp
      | _ => rw [hv] at h; cases h

/-- A long that passed the check is unchanged where it became an int. -/
theorem int_of_checkNarrowing {given v : Value} {path : List Step} {n : Int64} {m : Int}
    (h : given.checkNarrowing v = .ok ()) (hn : given.partAt path = some (.long n))
    (hm : v.slotAt path = some (.int, m)) : m = n.toInt := by
  obtain ⟨i, hi, rfl⟩ := mem_intsAt_of_slotAt hm
  rw [← eq_of_checkNarrowing h hn hi, Int32.toInt_toInt64]

/-! ## Bytes and resolution -/

/-- An item that became a byte did so as an int in range. -/
theorem resolveBytes_getElem? {items : List Fitting} {b : Bytes} {i : Nat} {item : Fitting}
    {byte : UInt8} (h : resolveBytes items = .ok (.bytes b)) (hitem : items[i]? = some item)
    (hbyte : b[i]? = some byte) :
    ∃ n, item [] none .int = .ok (.int n) ∧ (byte.toNat : Int) = n.toInt := by
  obtain ⟨_, hall, ⟨⟩⟩ := Outcome.bind_eq_ok.mp h
  obtain ⟨v, hv, hto⟩ := Outcome.bind_eq_ok.mp (Outcome.mapM_getElem? hall hitem hbyte)
  unfold toByte at hto
  split at hto
  · split at hto
    · rename_i n hrange
      cases hto
      refine ⟨n, hv, ?_⟩
      rw [UInt8.toNat_ofNat']
      omega
    · cases hto
  · cases hto

/-- Without parts, only an int or a long becomes an int. -/
theorem resolveLeaf_slot {given v : Value} {s : Schema} {slot : Slot} {m : Int}
    (h : resolveLeaf given s = .ok v) (hm : v.slotAt [] = some (slot, m)) :
    (∃ n, given = .int n) ∨ (∃ t n, given = .intTime t n) ∨ ∃ n, given = .long n := by
  unfold resolveLeaf at h
  split at h
  -- most results have no slot at sight
  all_goals try (cases h; cases hm; done)
  case h_3 | h_30 => exact .inl ⟨_, rfl⟩
  case h_4 => exact .inr (.inr ⟨_, rfl⟩)
  case h_31 => exact .inr (.inl ⟨_, _, rfl⟩)
  case h_18 | h_19 =>
    unfold resolveText at h
    split at h <;> cases h
    cases hm
  case h_20 | h_29 | h_34 | h_36 =>
    split at h <;> cases h
    cases hm
  case h_22 | h_23 =>
    obtain ⟨i, u, rfl⟩ := resolveSymbol_enum h
    cases hm
  case h_24 | h_25 | h_26 =>
    obtain ⟨-, -, h⟩ := Outcome.bind_eq_ok.mp h
    obtain ⟨-, -, ⟨⟩⟩ := Outcome.bind_eq_ok.mp h
    cases hm
  case h_27 =>
    obtain ⟨-, -, ⟨⟩⟩ := Outcome.bind_eq_ok.mp h
  case h_37 => cases h

theorem slot_of_slotAt_nil {v : Value} {slot : Slot} {m : Int}
    (h : v.slotAt [] = some (slot, m)) : slot = .int := by
  rw [slotAt] at h
  split at h <;> cases h <;> rfl

/-- A JSON value that itself became what has a slot is an integer. -/
theorem int_of_fit {fallback : Fallback} {j : Json} {given v : Value} {names : Names}
    {ns : Namespace} {s : Schema} {slot : Slot} {m : Int} (hgiven : j.toValue = .ok given)
    (h : given.fit fallback names ns s = .ok v) (hm : v.slotAt [] = some (slot, m)) :
    ∃ n, j = .int n := by
  obtain ⟨layers, ns', s', r, hplain, hv⟩ := meet_ok h
  have hr : r.slotAt [] = some (slot, m) := by
    rcases hv with rfl | ⟨i, rfl⟩
    · exact hm
    · cases r with
      | union i r => cases hm
      | _ => exact hm
  cases j with
  | int n => exact ⟨n, rfl⟩
  | array items =>
    obtain ⟨givens, -, ⟨⟩⟩ := Outcome.bind_eq_ok.mp hgiven
    rcases plain_array hplain with ⟨schema, hitems⟩ | hbytes
    · obtain ⟨_, -, ⟨⟩⟩ := Outcome.bind_eq_ok.mp hitems
      cases hr
    · obtain ⟨_, -, ⟨⟩⟩ := Outcome.bind_eq_ok.mp hbytes
      cases hr
  | object members =>
    obtain ⟨givens, -, ⟨⟩⟩ := Outcome.bind_eq_ok.mp hgiven
    rcases plain_map hplain with ⟨schema, hentries⟩ | ⟨fields, hfields⟩
    · obtain ⟨_, -, ⟨⟩⟩ := Outcome.bind_eq_ok.mp hentries
      cases hr
    · obtain ⟨_, -, ⟨⟩⟩ := Outcome.bind_eq_ok.mp hfields
      cases hr
  | _ =>
    cases hgiven
    rcases resolveLeaf_slot hplain hr with ⟨n, hn⟩ | ⟨t, n, hn⟩ | ⟨n, hn⟩ <;> cases hn

/-- What stands at the path of a slot is an integer, and it went through an int to become a byte. -/
theorem slot_of_fit {fallback : Fallback} {j part : Json} {given v : Value} {names : Names}
    {ns : Namespace} {s : Schema} {path : List Step} {slot : Slot} {m : Int}
    (hgiven : j.toValue = .ok given) (h : given.fit fallback names ns s = .ok v)
    (hpart : j.partAt path = some part) (hm : v.slotAt path = some (slot, m)) :
    ∃ n, part = .int n ∧
      (slot = .byte → m = (Int64.ofInt n).toInt32.toInt ∧ 0 ≤ m ∧ m < 256) := by
  induction path generalizing j given v names ns s with
  | nil =>
    cases hpart
    obtain ⟨n, rfl⟩ := int_of_fit hgiven h hm
    cases slot_of_slotAt_nil hm
    exact ⟨n, rfl, nofun⟩
  | cons step path ih =>
    obtain ⟨layers, ns', s', r, hplain, hv⟩ := meet_ok h
    cases step with
    | item i =>
      cases j with
      | array items =>
        obtain ⟨givens, hgivens, ⟨⟩⟩ := Outcome.bind_eq_ok.mp hgiven
        obtain ⟨item, hitem, hpart⟩ := Option.bind_eq_some_iff.mp hpart
        obtain ⟨g, hg, hvalue⟩ :=
          exists_right_of_rel (rel_getElem? (Json.forall₂_of_itemsToValues hgivens) i) hitem
        have hfit := fittings_getElem? fallback hg
        rcases plain_array hplain with ⟨schema, hitems⟩ | hbytes
        · obtain ⟨resolved, hall, ⟨⟩⟩ := Outcome.bind_eq_ok.mp hitems
          have hcontent : v.content = .array resolved := by
            rcases hv with rfl | ⟨i, rfl⟩ <;> rfl
          rw [slotAt, hcontent] at hm
          obtain ⟨r, hr, hm⟩ := Option.bind_eq_some_iff.mp hm
          exact ih hvalue (Outcome.mapM_getElem? hall hfit hr) hpart hm
        · obtain ⟨b, -, ⟨⟩⟩ := Outcome.bind_eq_ok.mp hbytes
          have hcontent : v.content = .bytes b := by
            rcases hv with rfl | ⟨i, rfl⟩ <;> rfl
          rw [slotAt, hcontent] at hm
          cases path with
          | nil =>
            obtain ⟨byte, hbyte, ⟨⟩⟩ := Option.map_eq_some_iff.mp hm
            obtain ⟨k, hk, heq⟩ := resolveBytes_getElem? hbytes hfit hbyte
            cases hpart
            obtain ⟨n, rfl⟩ := int_of_fit hvalue hk rfl
            obtain ⟨-, rfl⟩ := Json.toValue_int hvalue
            cases hk
            have := byte.toNat_lt
            exact ⟨n, rfl, fun _ => ⟨heq, by omega, by omega⟩⟩
          | cons step path => cases hm
      | _ => cases hpart
    | member name =>
      cases j with
      | object members =>
        obtain ⟨givens, hgivens, ⟨⟩⟩ := Outcome.bind_eq_ok.mp hgiven
        obtain ⟨member, hmember, hpart⟩ := Option.bind_eq_some_iff.mp hpart
        obtain ⟨g, hg, hvalue⟩ :=
          exists_right_of_rel ((Json.related_of_membersToEntries hgivens).lookup name) hmember
        have hfit := entryFittings_lookup fallback hg
        rcases plain_map hplain with ⟨schema, hentries⟩ | ⟨fields, hfields⟩
        · obtain ⟨entries, -, ⟨⟩⟩ := Outcome.bind_eq_ok.mp hentries
          have hcontent : v.content = .map entries := by
            rcases hv with rfl | ⟨i, rfl⟩ <;> rfl
          rw [slotAt, hcontent] at hm
          obtain ⟨r, hr, hm⟩ := Option.bind_eq_some_iff.mp hm
          exact ih hvalue (resolveEntries_lookup hentries hfit hr) hpart hm
        · obtain ⟨entries, -, ⟨⟩⟩ := Outcome.bind_eq_ok.mp hfields
          have hcontent : v.content = .record entries := by
            rcases hv with rfl | ⟨i, rfl⟩ <;> rfl
          rw [slotAt, hcontent] at hm
          obtain ⟨r, hr, hm⟩ := Option.bind_eq_some_iff.mp hm
          obtain ⟨schema, hentry⟩ := resolveFields_of_mem hfields hfit (mem_of_lookup hr)
          exact ih hvalue hentry hpart hm
      | _ => cases hpart

end Value

/-! ## JSON values -/

namespace Json

/-- Whatever the JSON value has at the path of a narrow slot of the other value is an integer. The
slot has what it stores for it, and has it unchanged if the slot keeps it and only then. -/
def StoredIn (j : Json) (v : Value) : Prop :=
  ∀ path part slot m, j.partAt path = some part → v.slotAt path = some (slot, m) →
    ∃ n, part = .int n ∧ (-int64Bound ≤ n → m = slot.stored n ∧ (m = n ↔ slot.Keeps n))

theorem storedIn_of_resolve {schema : Schema} {j : Json} {v : Value}
    (h : Writer.resolve schema j = .ok v) : j.StoredIn v := by
  obtain ⟨given, names, r, hgiven, -, hresolve, hr, hcheck⟩ := Writer.resolve_eq_ok h
  obtain rfl : r = v := hr
  intro path part slot m hpart hm
  obtain ⟨n, rfl, hbyte⟩ := Value.slot_of_fit hgiven hresolve hpart hm
  refine ⟨n, rfl, fun hlow => ?_⟩
  obtain ⟨u, hu, hvalue⟩ := partAt_of_toValue hgiven hpart
  obtain ⟨hhigh, rfl⟩ := toValue_int hvalue
  have hexact : (Int64.ofInt n).toInt = n := Int64.toInt_ofInt_of_le hlow hhigh
  cases slot with
  | int =>
    have hint := Value.int_of_checkNarrowing (hcheck (Value.containsLong_of_partAt hu)) hu hm
    rw [hexact] at hint
    exact ⟨hint, iff_of_true hint trivial⟩
  | byte =>
    obtain ⟨hcut, h0, h256⟩ := hbyte rfl
    rw [Int64.toInt_toInt32, hexact] at hcut
    have hmod : m = n % 0x100000000 := by
      have hemod : m % (2 ^ 32 : Nat) = n % (2 ^ 32 : Nat) := hcut ▸ Int.bmod_emod
      omega
    refine ⟨hmod, ?_⟩
    simp only [Slot.Keeps]
    omega

end Json

namespace Writer

/-- What a writer encodes of a JSON value has the integers of the JSON value as its slots do. It is
read back with the same slots if it has the form of the schema, as it always has where aliases are
held to be names. -/
theorem encode_storedIn {schema : Schema} {w : Writer} {j : Json} {b : Bytes}
    (hw : Ready schema w) (h : (w.encode j).1 = .ok b) :
    ∃ v names, resolve schema j = .ok v ∧ schema.names = .ok names ∧
      v.encode names schema.ns schema = .done b ∧ j.StoredIn v ∧
      (schema.regularAlone false → Formed schema j →
        ∃ u, Value.decodeWithin Decoder.anyLength schema b = .ok u [] ∧ Value.Alike v u ∧
          ∀ path, u.slotAt path = v.slotAt path) ∧
      (schema.regularAlone true → Datum.WellFormed j → Formed schema j) := by
  rw [encode_ready hw] at h
  have hdirect := Outcome.mapError_eq_ok.mp h
  obtain ⟨v, names, hv, hnames, -, hencode⟩ := direct_eq_ok hdirect
  refine ⟨v, names, hv, hnames, hencode, Json.storedIn_of_resolve hv, fun hs hform => ?_,
    fun hs hj => formed_of_direct hs hj hdirect⟩
  obtain ⟨v', hv', hread⟩ := direct_read hs hform hdirect
  cases hv.symm.trans hv'
  obtain ⟨u, halike, hu⟩ := hread []
  rw [List.append_nil] at hu
  exact ⟨u, hu, halike, halike.slotAt⟩

/-- Records of an int, of bytes and of more such records. -/
def nestSchema : Schema :=
  .record ⟨none, "N"⟩
    [⟨"n", [], none, .int⟩, ⟨"b", [], none, .union [.null, .bytes]⟩,
      ⟨"m", [], none, .map (.array (.ref ⟨none, "N"⟩))⟩]

/-- A record with two in a list of its map. -/
def nest : Json :=
  .object [("b", .null), ("n", .int (-2147483648)), ("m", .object [("k", .array
    [.object [("n", .int 7), ("m", .object []), ("b", .array [])],
      .object [("n", .int 0), ("m", .object []), ("b", .array [.int 1, .int 200])]])])]

/-- Where the last item of the inner bytes stands. -/
def nestPath : List Step :=
  [.member "m", .member "k", .item 1, .member "b", .item 1]

/-- The inner record has its integers, and they are read back. -/
theorem encode_storedIn_nest :
    ∃ w b v u, forSchema nestSchema = .ok w ∧ (w.encode nest).1 = .ok b ∧
      resolve nestSchema nest = .ok v ∧ nest.StoredIn v ∧
      Value.decodeWithin Decoder.anyLength nestSchema b = .ok u [] ∧
      nest.partAt nestPath = some (.int 200) ∧ u.slotAt nestPath = some (.byte, 200) := by
  obtain ⟨w, hw⟩ : ∃ w, forSchema nestSchema = .ok w := ⟨_, rfl⟩
  have hready := ready_of_create (create_of_forSchema hw)
  have hdirect : direct nestSchema nest = .ok [255, 255, 255, 255, 15, 0, 2, 2, 107, 4, 14, 2, 0,
      0, 0, 2, 4, 1, 200, 0, 0, 0] := by with_unfolding_all rfl
  have hencode : (w.encode nest).1 = .ok _ :=
    (encode_ready hready nest).trans (Outcome.mapError_eq_ok.mpr hdirect)
  have hslot : (resolve nestSchema nest).toOption.bind (Value.slotAt nestPath) =
      some (.byte, 200) := by rfl
  have hwell : Datum.WellFormed nest := by
    rintro v ⟨⟩
    decide
  obtain ⟨v, _, hv, -, -, hstored, hread, hformed⟩ := encode_storedIn hready hencode
  obtain ⟨u, hu, -, hslots⟩ := hread (by decide) (hformed (by decide) hwell)
  rw [hv] at hslot
  exact ⟨w, _, v, u, hw, hencode, hv, hstored, hu, rfl, (hslots nestPath).trans hslot⟩

/-- An item of more than 32 bits is another byte once it was cut down to an int. -/
theorem encode_alters_item :
    ∃ w u, forSchema .bytes = .ok w ∧ (w.encode (Json.array [.int 4294967301])).1 = .ok [2, 5] ∧
      Value.decodeWithin Decoder.anyLength .bytes [2, 5] = .ok u [] ∧
      (Json.array [.int 4294967301]).partAt [.item 0] = some (.int 4294967301) ∧
      u.slotAt [.item 0] = some (.byte, 5) :=
  ⟨_, _, rfl, by with_unfolding_all rfl, rfl, rfl, rfl⟩

end Writer
end RecordTape
