import RecordTape.Toml.Basic
import RecordTape.Toml.Number
import RecordTape.Toml.Scan
/-!
# Reading TOML

The statements of a text, one to a line, and the tree they build. Values may be nested 79 levels
deep.
-/

namespace RecordTape.Toml

/-- The greatest number of arrays and inline tables around a value. -/
def greatestDepth : Nat := 79

def isWordChar (c : Char) : Bool :=
  c.isAlphanum || c == '+' || c == '-' || c == '_' || c == '.' || c == ':'

/-- The word at the front. A time after a date and one space belongs to the word. -/
def splitWord (cs : List Char) : List Char × List Char :=
  let word := cs.takeWhile isWordChar
  let rest := cs.dropWhile isWordChar
  match rest with
  | ' ' :: more =>
    let second := more.takeWhile isWordChar
    if date? word = some [] && isMoment (word ++ ' ' :: second) then
      (word ++ ' ' :: second, more.dropWhile isWordChar)
    else (word, rest)
  | rest => (word, rest)

def ofWord (word : List Char) : Option Item :=
  if word = ['t', 'r', 'u', 'e'] then some (.boolean true)
  else if word = ['f', 'a', 'l', 's', 'e'] then some (.boolean false)
  else if isMoment word then some .moment
  else if isFloat word then some .float
  else (integer? word).map .integer

/-- The rest of an array after its opening bracket; at most `limit` items. A comma may end it. -/
def arrayItems (item : Scanner Item) : (limit : Nat) → Scanner (List Item)
  | 0, _ => none
  | limit + 1, cs =>
    match skipGaps cs with
    | ']' :: rest => some ([], rest)
    | cs => do
      let (first, rest) ← item cs
      match skipGaps rest with
      | ',' :: rest => do
        let (others, rest) ← arrayItems item limit rest
        return (first :: others, rest)
      | ']' :: rest => some ([first], rest)
      | _ => none

/-- A key, an equals sign and a value. -/
def pair (item : Scanner Item) : Scanner (List String × Item) := fun cs => do
  let (path, rest) ← key cs
  let (value, rest) ← item (skipSpace (← expect '=' (skipSpace rest)))
  return ((path, value), rest)

/-- The pairs of an inline table up to its closing brace, at least one of them and at most `limit`.
No comma may end it. -/
def inlinePairs (item : Scanner Item) : (limit : Nat) → Scanner (List (List String × Item))
  | 0, _ => none
  | limit + 1, cs => do
    let (first, rest) ← pair item cs
    match skipSpace rest with
    | ',' :: rest => do
      let (others, rest) ← inlinePairs item limit rest
      return (first :: others, rest)
    | '\x7d' :: rest => some ([first], rest)
    | _ => none

def scalar (cs : List Char) : Option (Item × List Char) :=
  match string? cs with
  | some (s, rest) => some (.string s, rest)
  | none => do
    let (word, rest) := splitWord cs
    return (← ofWord word, rest)

/-- A value that may open `depth` more arrays and inline tables. -/
def value : (depth : Nat) → Scanner Item
  | 0, cs => scalar cs
  | depth + 1, cs =>
    match cs with
    | '[' :: rest => do
      let (items, rest) ← arrayItems (value depth) (rest.length + 1) rest
      return (.array items, rest)
    | '\x7b' :: rest =>
      match skipSpace rest with
      | '\x7d' :: rest => some (.table .inlineTable [], rest)
      | rest => do
        let (pairs, rest) ← inlinePairs (value depth) (rest.length + 1) rest
        return (.table .inlineTable (← Entries.ofPairs pairs), rest)
    | cs => scalar cs

/-- A statement, without the end of its line. -/
def statement : Scanner Statement
  | '[' :: '[' :: rest => do
    let (path, rest) ← key rest
    let rest ← expect ']' (← expect ']' (skipSpace rest))
    return (.nextTable path, rest)
  | '[' :: rest => do
    let (path, rest) ← key rest
    return (.table path, ← expect ']' (skipSpace rest))
  | cs => do
    let ((path, item), rest) ← pair (value greatestDepth) cs
    return (.pair path item, rest)

/-- The statements of a text of at most `limit` lines. Lines without a statement are skipped. -/
def statements : (limit : Nat) → List Char → Option (List Statement)
  | 0, _ => none
  | limit + 1, cs =>
    match endLine? cs with
    | some [] => some []
    | some rest => statements limit rest
    | none => do
      let (first, rest) ← statement (skipSpace cs)
      match ← endLine? rest with
      | [] => return [first]
      | rest => return first :: (← statements limit rest)

/-- A byte order mark may stand before a text. -/
def skipMark : List Char → List Char
  | '\uFEFF' :: rest => rest
  | cs => cs

def parse (text : String) : Option Entries :=
  let cs := skipMark text.toList
  (statements (cs.length + 1) cs).bind Document.ofStatements

end RecordTape.Toml
