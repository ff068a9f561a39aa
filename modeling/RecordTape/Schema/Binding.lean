import RecordTape.Schema.Basic
/-!
# Binding names

A schema can be written under once every name in it has one meaning. `bind` walks the schema in
order, collects its definitions under their full names, and refuses a name defined twice and a
reference to a name that is not defined before it, here or among names known already. A definition
counts before its own fields are walked, so a record may refer to itself.
-/

namespace RecordTape

/-- Why the names of a schema have no meaning. -/
inductive BindingError where
  | ambiguous (name : Name)
  | unresolved (name : Name)
deriving DecidableEq, Repr

namespace BindingError

def message : BindingError → String
  | ambiguous name => "Two named schema defined for same fullname: " ++ name.full ++ "."
  | unresolved name => "Unresolved schema reference: " ++ name.full

end BindingError

namespace Names

/-- Adds a definition under a name that has none yet. -/
def define (names : Names) (name : Name) (s : Schema) : Except BindingError Names :=
  if names.defines name then .error (.ambiguous name) else .ok ((name, s) :: names)

end Names

namespace Schema

mutual

/-- Adds the definitions of a schema to those found before it. -/
def bind (known : Names) : Schema → Namespace → Names → Except BindingError Names
  | array items, ns, found => bind known items ns found
  | map values, ns, found => bind known values ns found
  | union branches, ns, found => bindBranches known branches ns found
  | record name fields, ns, found => do
    let full := name.qualify ns
    bindFields known fields full.ns (← found.define full (record name fields))
  | enum name symbols default, ns, found =>
    found.define (name.qualify ns) (enum name symbols default)
  | fixed name size, ns, found => found.define (name.qualify ns) (fixed name size)
  | ref name, ns, found =>
    let full := name.qualify ns
    if found.defines full || known.defines full then .ok found else .error (.unresolved full)
  | _, _, found => .ok found

def bindBranches (known : Names) : List Schema → Namespace → Names → Except BindingError Names
  | [], _, found => .ok found
  | s :: rest, ns, found => do bindBranches known rest ns (← bind known s ns found)

def bindFields (known : Names) :
    List (Field Schema) → Namespace → Names → Except BindingError Names
  | [], _, found => .ok found
  | ⟨_, _, _, s⟩ :: rest, ns, found => do bindFields known rest ns (← bind known s ns found)

end

def names (s : Schema) : Except BindingError Names :=
  bind [] s none []

end Schema
end RecordTape
