import RecordTape.Hex
/-!
# JSON tokens

Splits a JSON text into brackets, separators, strings and words. A word is a longest run of
letters, digits, signs and points; whether it is a number or a name is for the parser to say. A
string is kept as units: characters, and the numbers of `\u` escapes, which stand for characters
only once surrogates are paired.
-/

namespace RecordTape.Json

/-- A piece of a string as it is written. -/
inductive StringUnit where
  | char (c : Char)
  /-- The four digits of a `\u` escape. -/
  | code (n : Nat)

inductive Token where
  | openArray
  | closeArray
  | openObject
  | closeObject
  | comma
  | colon
  | text (units : List StringUnit)
  | word (chars : List Char)

namespace Token

/-- What the scanner is in the middle of. Pieces are kept in reverse order. -/
inductive Mode where
  | idle
  | word (chars : List Char)
  | text (units : List StringUnit)
  | escape (units : List StringUnit)
  | code (units : List StringUnit) (digits value : Nat)

/-- The tokens found so far, in reverse order, and what is going on. -/
structure Scan where
  tokens : List Token
  mode : Mode

def isWordChar (c : Char) : Bool :=
  c.isAlphanum || c == '+' || c == '-' || c == '.'

def isSpace (c : Char) : Bool :=
  c == ' ' || c == '\t' || c == '\n' || c == '\r'

/-- The character after a backslash, unless it starts a `\u` escape. -/
def escaped? : Char → Option Char
  | '"' => some '"'
  | '\\' => some '\\'
  | '/' => some '/'
  | 'b' => some '\x08'
  | 'f' => some '\x0c'
  | 'n' => some '\n'
  | 'r' => some '\r'
  | 't' => some '\t'
  | _ => none

def stepIdle (tokens : List Token) (c : Char) : Option Scan :=
  if isSpace c then some ⟨tokens, .idle⟩
  else if isWordChar c then some ⟨tokens, .word [c]⟩
  else match c with
    | '[' => some ⟨.openArray :: tokens, .idle⟩
    | ']' => some ⟨.closeArray :: tokens, .idle⟩
    | '\x7b' => some ⟨.openObject :: tokens, .idle⟩
    | '\x7d' => some ⟨.closeObject :: tokens, .idle⟩
    | ',' => some ⟨.comma :: tokens, .idle⟩
    | ':' => some ⟨.colon :: tokens, .idle⟩
    | '"' => some ⟨tokens, .text []⟩
    | _ => none

/-- One character of the text. Control characters are refused inside a string. -/
def step (s : Scan) (c : Char) : Option Scan :=
  match s.mode with
  | .idle => stepIdle s.tokens c
  | .word chars =>
    if isWordChar c then some ⟨s.tokens, .word (c :: chars)⟩
    else stepIdle (.word chars.reverse :: s.tokens) c
  | .text units =>
    if c = '"' then some ⟨.text units.reverse :: s.tokens, .idle⟩
    else if c = '\\' then some ⟨s.tokens, .escape units⟩
    else if c.toNat < 0x20 then none
    else some ⟨s.tokens, .text (.char c :: units)⟩
  | .escape units =>
    if c = 'u' then some ⟨s.tokens, .code units 0 0⟩
    else (escaped? c).map fun e => ⟨s.tokens, .text (.char e :: units)⟩
  | .code units digits value => do
    let d ← Hex.value? c
    let value := value * 16 + d
    return if digits = 3 then ⟨s.tokens, .text (.code value :: units)⟩
      else ⟨s.tokens, .code units (digits + 1) value⟩

/-- The end of the text; a string must be closed. -/
def finish (s : Scan) : Option (List Token) :=
  match s.mode with
  | .idle => some s.tokens.reverse
  | .word chars => some (Token.word chars.reverse :: s.tokens).reverse
  | _ => none

def scan (text : List Char) : Option (List Token) :=
  (text.foldlM step ⟨[], .idle⟩).bind finish

end Token
end RecordTape.Json
