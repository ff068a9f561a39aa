import RecordTape.Hex
/-!
# Scanning TOML

The pieces of TOML below values: white space, line ends, comments, strings of all four forms, and
keys. A `Scanner` takes something from the front of a text and leaves the rest. Control characters
are refused everywhere but for tabs and line ends.
-/

namespace RecordTape.Toml

/-- Takes something from the front of a text and leaves the rest. -/
abbrev Scanner (α : Type) := List Char → Option (α × List Char)

def quote : Char := '"'

def apostrophe : Char := '\x27'

def isSpace (c : Char) : Bool := c == ' ' || c == '\t'

/-- A character that may stand in a comment or string. -/
def isPlain (c : Char) : Bool := c == '\t' || (c.toNat ≥ 0x20 && c.toNat != 0x7F)

def isKeyChar (c : Char) : Bool := c.isAlphanum || c == '_' || c == '-'

def skipSpace (cs : List Char) : List Char := cs.dropWhile isSpace

def lineEnd? : List Char → Option (List Char)
  | '\n' :: rest => some rest
  | '\r' :: '\n' :: rest => some rest
  | _ => none

/-- A comment, up to the line end. -/
def skipComment : List Char → List Char
  | '#' :: rest => rest.dropWhile isPlain
  | cs => cs

/-- What may follow a statement on its line: space, a comment, and the line end or the end of the
text. -/
def endLine? (cs : List Char) : Option (List Char) :=
  match skipComment (skipSpace cs) with
  | [] => some []
  | rest => lineEnd? rest

/-- Space, comments and line ends between the items of an array; at most `limit` lines. -/
def skipLines : (limit : Nat) → List Char → List Char
  | 0, cs => cs
  | limit + 1, cs =>
    let cs := skipComment (skipSpace cs)
    match lineEnd? cs with
    | some rest => skipLines limit rest
    | none => cs

/-- A comment ends with its line, so none is left open before what follows it. -/
def skipGaps (cs : List Char) : List Char :=
  skipLines (cs.length + 1) cs

/-! ## Strings -/

def codePoint? (digits : List Char) : Option Char := do
  let n ← Hex.toNat? (String.ofList digits)
  if n.isValidChar then some (Char.ofNat n) else none

/-- What a backslash stands for together with the characters after it. -/
def escape? : Scanner Char
  | 'b' :: rest => some ('\x08', rest)
  | 't' :: rest => some ('\t', rest)
  | 'n' :: rest => some ('\n', rest)
  | 'f' :: rest => some ('\x0c', rest)
  | 'r' :: rest => some ('\r', rest)
  | '"' :: rest => some ('"', rest)
  | '\\' :: rest => some ('\\', rest)
  | 'u' :: rest =>
    if (rest.take 4).length = 4 then (codePoint? (rest.take 4)).map (·, rest.drop 4) else none
  | 'U' :: rest =>
    if (rest.take 8).length = 8 then (codePoint? (rest.take 8)).map (·, rest.drop 8) else none
  | _ => none

/-- The rest of a string on one line, after its opening mark. `limit` bounds its characters, and
escapes count only in basic strings. -/
def lineString (mark : Char) (escapes : Bool) : (limit : Nat) → Scanner (List Char)
  | 0, _ => none
  | _ + 1, [] => none
  | limit + 1, c :: rest =>
    if c = mark then some ([], rest)
    else if escapes && c = '\\' then do
      let (e, rest) ← escape? rest
      let (cs, rest) ← lineString mark escapes limit rest
      return (e :: cs, rest)
    else if isPlain c then do
      let (cs, rest) ← lineString mark escapes limit rest
      return (c :: cs, rest)
    else none

/-- The end of a string of several lines: three marks, and one or two before them that belong to the
string. -/
def closing? (mark : Char) (cs : List Char) : Option (List Char × List Char) :=
  let marks := (cs.takeWhile (· == mark)).length
  if marks < 3 then none
  else
    let inside := min (marks - 3) 2
    some (List.replicate inside mark, cs.drop (inside + 3))

/-- The rest of a string of several lines, after its opening marks. A line end counts as a line
feed; in basic strings a backslash at the end of a line swallows all space up to the next character.
-/
def blockString (mark : Char) (escapes : Bool) : (limit : Nat) → Scanner (List Char)
  | 0, _ => none
  | _ + 1, [] => none
  | limit + 1, c :: rest =>
    match closing? mark (c :: rest) with
    | some (inside, rest) => some (inside, rest)
    | none =>
      match lineEnd? (c :: rest) with
      | some rest => do
        let (cs, rest) ← blockString mark escapes limit rest
        return ('\n' :: cs, rest)
      | none =>
        if escapes && c = '\\' then
          match lineEnd? (skipSpace rest) with
          | some rest => blockString mark escapes limit (skipBlank (rest.length + 1) rest)
          | none => do
            let (e, rest) ← escape? rest
            let (cs, rest) ← blockString mark escapes limit rest
            return (e :: cs, rest)
        else if isPlain c then do
          let (cs, rest) ← blockString mark escapes limit rest
          return (c :: cs, rest)
        else none
where
  /-- The text after spaces and line ends. -/
  skipBlank : (limit : Nat) → List Char → List Char
    | 0, cs => cs
    | limit + 1, cs =>
      let cs := skipSpace cs
      match lineEnd? cs with
      | some rest => skipBlank limit rest
      | none => cs

/-- A string of several lines; a line end right after the opening marks does not count. -/
def block (mark : Char) (cs : List Char) : Option (String × List Char) := do
  let cs := (lineEnd? cs).getD cs
  let (text, rest) ← blockString mark (mark == quote) (cs.length + 1) cs
  return (String.ofList text, rest)

def line (mark : Char) (cs : List Char) : Option (String × List Char) := do
  let (text, rest) ← lineString mark (mark == quote) (cs.length + 1) cs
  return (String.ofList text, rest)

def string? : Scanner String
  | a :: b :: c :: rest =>
    if (a = quote || a = apostrophe) && b = a then
      if c = a then block a rest else some ("", c :: rest)
    else if a = quote || a = apostrophe then line a (b :: c :: rest)
    else none
  | a :: rest => if a = quote || a = apostrophe then line a rest else none
  | [] => none

/-! ## Keys -/

/-- The greatest number of parts of a dotted key. -/
def greatestPath : Nat := 79

/-- One part of a key: without quotes, or a string on one line. -/
def simpleKey : Scanner String
  | [] => none
  | c :: rest =>
    if c = quote || c = apostrophe then line c rest
    else
      let bare := (c :: rest).takeWhile isKeyChar
      if bare.isEmpty then none else some (String.ofList bare, (c :: rest).dropWhile isKeyChar)

/-- The parts of a dotted key, with space around each; at most `limit` of them. -/
def keyParts : (limit : Nat) → Scanner (List String)
  | 0, _ => none
  | limit + 1, cs => do
    let (first, rest) ← simpleKey (skipSpace cs)
    match skipSpace rest with
    | '.' :: rest => do
      let (others, rest) ← keyParts limit rest
      return (first :: others, rest)
    | rest => some ([first], rest)

def key : Scanner (List String) := keyParts greatestPath

end RecordTape.Toml
