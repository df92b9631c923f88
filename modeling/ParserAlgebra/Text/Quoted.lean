import ParserAlgebra.Text.Printable

/-!
# Text/Quoted — text between quotes

Names of parsers and the debug log show text in quotes.  The quote is single, unless the text holds
a single quote and no double one; inside, the quote in use and the backslash are escaped, the three
common controls have short escapes, and every other character without a glyph is written by its
code point in two, four or eight hexadecimal digits.
-/

namespace ParserAlgebra

namespace Quoted

/-- The quote a text is put between: single where that needs no more escapes than double. -/
def mark (cs : List Char) : Char := if cs.contains '\x27' && !cs.contains '"' then '"' else '\x27'

/-- `n` in lower-case hexadecimal, padded with zeros to `width` digits. -/
def hex (width n : Nat) : List Char :=
  let digits := Nat.toDigits 16 n
  List.replicate (width - digits.length) '0' ++ digits

/-- A character by its code point, in the shortest of the three forms that holds it. -/
def codePoint (c : Char) : List Char :=
  if c.toNat < 0x100 then '\x5c' :: 'x' :: hex 2 c.toNat
  else if c.toNat < 0x10000 then '\x5c' :: 'u' :: hex 4 c.toNat
  else '\x5c' :: 'U' :: hex 8 c.toNat

/-- One character as it stands between two quotes `mark`. -/
def escape (mark c : Char) : List Char :=
  if c == mark || c == '\x5c' then ['\x5c', c]
  else if c == '\n' then ['\x5c', 'n']
  else if c == '\t' then ['\x5c', 't']
  else if c == '\r' then ['\x5c', 'r']
  else if isPrintable c then [c]
  else codePoint c

/-- The characters of a quoted text, quotes included. -/
def encode (cs : List Char) : List Char := mark cs :: cs.flatMap (escape (mark cs)) ++ [mark cs]

end Quoted

/-- **A text in quotes.** -/
def quoted (text : String) : String := String.ofList (Quoted.encode text.toList)

end ParserAlgebra
