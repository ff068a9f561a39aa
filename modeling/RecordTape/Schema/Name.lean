/-!
# Names of schemas

A named schema has a base name and, unless it stands outside every namespace, a dotted namespace.
`Name.parse` reads a dotted name; `qualify` gives a bare name the namespace it is used in.
-/

namespace RecordTape

/-- A namespace, or none; the empty text is never one. -/
abbrev Namespace := Option String

structure Name where
  ns : Namespace
  base : String
deriving DecidableEq, Repr

namespace Name

def isStart (c : Char) : Bool := c.isAlpha || c == '_'

def isPart (c : Char) : Bool := c.isAlphanum || c == '_'

/-- A letter or underscore followed by letters, digits and underscores. -/
def isIdentifier : List Char → Bool
  | [] => false
  | c :: cs => isStart c && cs.all isPart

def segments : List Char → List (List Char)
  | [] => [[]]
  | c :: cs =>
    match segments cs with
    | [] => [[c]]
    | s :: rest => if c = '.' then [] :: s :: rest else (c :: s) :: rest

/-- The empty text, or identifiers with single dots between them. -/
def isNamespace (s : String) : Bool :=
  s.isEmpty || (segments s.toList).all isIdentifier

/-- What may stand before the last dot of a name: nothing, or a start character followed by parts
and dots in any arrangement. -/
def isQualifier : List Char → Bool
  | [] => true
  | c :: cs => isStart c && cs.all fun d => isPart d || d == '.'

/-- A namespace with the empty one taken as none. -/
def nonEmpty (s : String) : Namespace :=
  if s.isEmpty then none else some s

/-- The characters before the last dot, if there is one, and those after it. -/
def splitLast (cs : List Char) : Option (List Char) × List Char :=
  let back := cs.reverse
  let base := (back.takeWhile (· != '.')).reverse
  match back.dropWhile (· != '.') with
  | [] => (none, base)
  | _ :: front => (some front.reverse, base)

/-- The namespace written before the last dot of a name, if there is a dot, and the base name. -/
def split (s : String) : Option (Namespace × String) :=
  let (qualifier, base) := splitLast s.toList
  if isIdentifier base && isQualifier (qualifier.getD []) then
    some (qualifier.map String.ofList, String.ofList base)
  else none

/-- Reads a possibly dotted name. A dot with nothing before it gives no namespace. -/
def parse (s : String) : Option Name :=
  (split s).map fun (qualifier, base) => ⟨qualifier.bind nonEmpty, base⟩

/-- The name inside a namespace: its own namespace counts if it has one. -/
def qualify (enclosing : Namespace) (n : Name) : Name :=
  { n with ns := n.ns <|> enclosing }

/-- The namespace and the base name with a dot between them. -/
def full (n : Name) : String :=
  match n.ns with
  | some ns => ns ++ "." ++ n.base
  | none => n.base

@[simp] theorem qualify_base (ns : Namespace) (n : Name) : (n.qualify ns).base = n.base := rfl

end Name
end RecordTape
