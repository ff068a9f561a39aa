/-!
# TOML tables

The tree of a TOML text, and the rules by which its statements build it: which tables may be added
to by a header, by a dotted key, or not at all. A table remembers how it came about, because that
decides.
-/

namespace RecordTape.Toml

/-- How a table came about. -/
inductive Origin where
  /-- By a header of its own. -/
  | header
  /-- As part of the path of another header. -/
  | path
  /-- As part of a dotted key. -/
  | dotted
  /-- Between braces. -/
  | inlineTable
deriving DecidableEq, Repr

/-- A value, a table, or an array of tables. -/
inductive Item where
  | string (s : String)
  | integer (n : Int)
  | float
  | boolean (b : Bool)
  | moment
  | array (items : List Item)
  | table (origin : Origin) (entries : List (String × Item))
  /-- An array of tables, the latest first. -/
  | tables (latestFirst : List (List (String × Item)))

abbrev Entries := List (String × Item)

namespace Entries

/-- Puts an entry in the place of the one of the same key, or at the end. -/
def put (key : String) (item : Item) : Entries → Entries
  | [] => [(key, item)]
  | (k, i) :: rest => if k = key then (key, item) :: rest else (k, i) :: put key item rest

/-- Adds an entry under a key that has none. -/
def add (key : String) (item : Item) (entries : Entries) : Option Entries :=
  if (entries.lookup key).isSome then none else some (entries ++ [(key, item)])

/-- Adds an entry under a dotted key. The table that takes the entry must be new or have come about
by dotted keys; tables of paths and arrays of tables may only be passed through on the way. -/
def addDotted (item : Item) : (path : List String) → Entries → Option Entries
  | [], _ => none
  | [key], entries => entries.add key item
  | key :: next :: rest, entries =>
    match entries.lookup key with
    | none => do
      return entries ++ [(key, .table .dotted (← addDotted item (next :: rest) []))]
    | some (.table .dotted inner) => do
      return entries.put key (.table .dotted (← addDotted item (next :: rest) inner))
    | some (.table .path inner) =>
      if rest.isEmpty then none
      else do return entries.put key (.table .path (← addDotted item (next :: rest) inner))
    | some (.tables (latest :: earlier)) =>
      if rest.isEmpty then none
      else do return entries.put key (.tables ((← addDotted item (next :: rest) latest) :: earlier))
    | some _ => none

/-- Changes the table at the end of the path of a header. Tables on the way come about by the path,
and an array of tables stands for its latest table. -/
def changeAt (change : Entries → Option Entries) : (path : List String) → Entries → Option Entries
  | [], entries => change entries
  | key :: rest, entries =>
    match entries.lookup key with
    | none => do return entries ++ [(key, .table .path (← changeAt change rest []))]
    | some (.table .inlineTable _) => none
    | some (.table origin inner) => do
      return entries.put key (.table origin (← changeAt change rest inner))
    | some (.tables (latest :: earlier)) => do
      return entries.put key (.tables ((← changeAt change rest latest) :: earlier))
    | some _ => none

/-- Opens a table by its header: it is new, or has only been part of a path so far. -/
def openTable (key : String) (entries : Entries) : Option Entries :=
  match entries.lookup key with
  | none => some (entries ++ [(key, .table .header [])])
  | some (.table .path inner) => some (entries.put key (.table .header inner))
  | some _ => none

/-- Opens the next table of an array of tables. -/
def openNext (key : String) (entries : Entries) : Option Entries :=
  match entries.lookup key with
  | none => some (entries ++ [(key, .tables [[]])])
  | some (.tables earlier) => some (entries.put key (.tables ([] :: earlier)))
  | some _ => none

/-- The table of braces: dotted keys build tables inside it, and no key stands twice. -/
def ofPairs (pairs : List (List String × Item)) : Option Entries :=
  pairs.foldlM (fun entries (path, item) => addDotted item path entries) []

end Entries

inductive Statement where
  | table (path : List String)
  | nextTable (path : List String)
  | pair (path : List String) (item : Item)

/-- The tree built so far, and the path of the table that pairs go to. -/
structure Document where
  root : Entries
  current : List String

namespace Document

def empty : Document := ⟨[], []⟩

def step (d : Document) : Statement → Option Document
  | .table path => do
    let key ← path.getLast?
    return ⟨← d.root.changeAt (Entries.openTable key) path.dropLast, path⟩
  | .nextTable path => do
    let key ← path.getLast?
    return ⟨← d.root.changeAt (Entries.openNext key) path.dropLast, path⟩
  | .pair path item => do
    return { d with root := ← d.root.changeAt (Entries.addDotted item path) d.current }

def ofStatements (statements : List Statement) : Option Entries :=
  (statements.foldlM step empty).map Document.root

end Document
end RecordTape.Toml
