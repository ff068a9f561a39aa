import RecordTape.Hex
/-!
# Universally unique identifiers

Sixteen octets. Reading takes four written forms in either case: thirty-two digits, the form with
hyphens, that form in braces, and that form after `urn:uuid:`. Printing gives the form with hyphens
in lower case.
-/

namespace RecordTape

/-- A universally unique identifier. -/
structure Uuid where
  octets : Bytes
  size : octets.length = 16
deriving DecidableEq

namespace Uuid

def ofDigits (digits : List Char) : Option Uuid := do
  let octets ← Hex.decodeChars digits
  if h : octets.length = 16 then some ⟨octets, h⟩ else none

/-- Reads the form with hyphens: groups of 8, 4, 4, 4 and 12 digits. -/
def ofHyphenated (cs : List Char) : Option Uuid :=
  let hyphens := [8, 13, 18, 23]
  if cs.length = 36 ∧ ∀ i ∈ hyphens, cs[i]? = some '-' then
    ofDigits (cs.take 8 ++ (cs.drop 9).take 4 ++ (cs.drop 14).take 4 ++ (cs.drop 19).take 4 ++
      cs.drop 24)
  else none

/-- Reads an identifier in any of the written forms. -/
def parse (s : String) : Option Uuid :=
  let cs := s.toList
  if cs.length = 32 then ofDigits cs
  else if cs.length = 36 then ofHyphenated cs
  else if cs.length = 38 ∧ cs.head? = some '\x7b' ∧ cs.getLast? = some '\x7d' then
    ofHyphenated ((cs.drop 1).take 36)
  else if cs.length = 45 ∧
      (cs.take 9).map Char.toLower = ['u', 'r', 'n', ':', 'u', 'u', 'i', 'd', ':'] then
    ofHyphenated (cs.drop 9)
  else none

def text (u : Uuid) : String :=
  let group (start count : Nat) := Hex.encode ((u.octets.drop start).take count)
  "-".intercalate [group 0 4, group 4 2, group 6 2, group 8 2, group 10 6]

end Uuid
end RecordTape
