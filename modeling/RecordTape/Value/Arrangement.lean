import RecordTape.Value.Basic
/-!
# The order of maps

The entries of a map are kept in a hash table, and each table lists its entries in an order of its
own: no two tables need agree, even if the same entries went into them one after the other. Wherever
a map is listed, that order shows: in the bytes of the map, and in which of several entries with
something wrong is the one reported.

A `Value` lists the entries of its maps. Values that are the same but for those lists are
`Rearranged`, and an `Arrangement` picks one of them for each value. So whatever holds for all
arrangements holds for all orders that hash tables may come up with.
-/

namespace RecordTape

/-- The same entries in another order. Only names that differ can change places. -/
def Reordered {α : Type} (entries listed : List (String × α)) : Prop :=
  entries = listed ∨ entries.Perm listed ∧ (entries.map (·.1)).Nodup

/-- The same value, but for the order in which maps inside it list their entries. -/
inductive Rearranged : Value → Value → Prop
  | refl (v : Value) : Rearranged v v
  | array {items items' : List Value} :
    items.length = items'.length → (∀ p ∈ items.zip items', Rearranged p.1 p.2) →
    Rearranged (.array items) (.array items')
  | map {entries entries' listed : List (String × Value)} :
    entries.map (·.1) = entries'.map (·.1) →
    (∀ p ∈ entries.zip entries', Rearranged p.1.2 p.2.2) → Reordered entries' listed →
    Rearranged (.map entries) (.map listed)
  | union (index : Nat) {v w : Value} :
    Rearranged v w → Rearranged (.union index v) (.union index w)
  | record {fields fields' : List (String × Value)} :
    fields.map (·.1) = fields'.map (·.1) →
    (∀ p ∈ fields.zip fields', Rearranged p.1.2 p.2.2) →
    Rearranged (.record fields) (.record fields')

/-- The orders of all maps inside a value. -/
structure Arrangement where
  arrange : Value → Value
  rearranges : ∀ v, Rearranged v (arrange v)

namespace Arrangement

def listed : Arrangement := ⟨id, .refl⟩

@[simp] theorem listed_arrange (v : Value) : listed.arrange v = v := rfl

end Arrangement
end RecordTape
