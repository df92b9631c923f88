/-!
# Text/Printable — which characters are written as themselves

Quoted text shows a character as itself unless its general category says that it has no glyph of
its own: controls, formats, separators other than the space, surrogates and private use.  The
ranges below are those categories; unassigned code points are taken as printable.
-/

namespace ParserAlgebra

namespace Printable

/-- Controls (`Cc`). -/
def controls : List (Nat × Nat) := [(0x0, 0x1f), (0x7f, 0x9f)]

/-- Separators of words, lines and paragraphs (`Zs`, `Zl`, `Zp`), the plain space left out. -/
def separators : List (Nat × Nat) :=
  [(0xa0, 0xa0), (0x1680, 0x1680), (0x2000, 0x200a), (0x2028, 0x2029), (0x202f, 0x202f),
   (0x205f, 0x205f), (0x3000, 0x3000)]

/-- Characters that only direct the layout of their neighbours (`Cf`). -/
def formats : List (Nat × Nat) :=
  [(0xad, 0xad), (0x600, 0x605), (0x61c, 0x61c), (0x6dd, 0x6dd), (0x70f, 0x70f), (0x890, 0x891),
   (0x8e2, 0x8e2), (0x180e, 0x180e), (0x200b, 0x200f), (0x202a, 0x202e), (0x2060, 0x2064),
   (0x2066, 0x206f), (0xfeff, 0xfeff), (0xfff9, 0xfffb), (0x110bd, 0x110bd), (0x110cd, 0x110cd),
   (0x13430, 0x1343f), (0x1bca0, 0x1bca3), (0x1d173, 0x1d17a), (0xe0001, 0xe0001),
   (0xe0020, 0xe007f)]

/-- Private use (`Co`). -/
def privateUse : List (Nat × Nat) :=
  [(0xe000, 0xf8ff), (0xf0000, 0xffffd), (0x100000, 0x10fffd)]

end Printable

/-- **Whether a character is written as itself** inside quotes. -/
def isPrintable (c : Char) : Bool :=
  !(Printable.controls ++ Printable.separators ++ Printable.formats ++ Printable.privateUse).any
    fun r => r.1 ≤ c.toNat && c.toNat ≤ r.2

end ParserAlgebra
