/-!
# Blank text

The characters that count as white space in text of any script, and the texts made of them alone.
-/

namespace RecordTape.Text

/-- White space of any script: the tab to the carriage return, the space, the next-line control,
the no-break space and the separators. -/
def isBlankChar (c : Char) : Bool :=
  let n := c.toNat
  (9 ≤ n && n ≤ 13) || n = 0x20 || n = 0x85 || n = 0xA0 || n = 0x1680 ||
    (0x2000 ≤ n && n ≤ 0x200A) || n = 0x2028 || n = 0x2029 || n = 0x202F || n = 0x205F ||
    n = 0x3000

/-- A text of white space only; the empty text is one. -/
def isBlank (s : String) : Bool :=
  s.toList.all isBlankChar

end RecordTape.Text
