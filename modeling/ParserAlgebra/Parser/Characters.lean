import ParserAlgebra.Parser.Chains
import ParserAlgebra.Parser.Tokens

/-!
# Parser/Characters — grammars over the characters of a text

Digits, letters, whitespace, and the two smallest things written with them: integers and
identifiers.  All classes are ASCII.
-/

namespace ParserAlgebra.Parser

variable {P : Type} [Labelled P]

def digit : Parser P := (charIn .digits).named (.word "digit")

def letter : Parser P := (charIn .letters).named (.word "letter")

def whitespace : Parser P := (charIn .whitespace).named (.word "whitespace")

/-- Any run of whitespace, dropped. -/
def spaces : Parser P := (whitespace.repeat0 gathered).skipped.named (.word "spaces")

/-- **The parser, and then any whitespace behind it.** -/
def lexeme (p : Parser P) : Except (Error P) (Parser P) := sequence [p, spaces]

/-- The sign and the digits of an integer. -/
def signedDigits : Parser P :=
  sequenced [(token (.ofText "-")).optional, digit.repeat1 gathered]

/-- **An optionally negative decimal integer.** -/
def integer : Parser P :=
  (signedDigits.mapped (.total (.action .toInteger) (some (.ofInt 1)))).named (.word "integer")

/-- What an identifier begins with. -/
def wordStart : Parser P := alternated [letter, token (.ofText "_")]

/-- The first character of an identifier and the ones behind it. -/
def wordParts : Parser P :=
  sequenced [wordStart, (charIn .wordCharacters).repeat0 gathered]

/-- **A letter or underscore, then letters, digits and underscores.** -/
def identifier : Parser P :=
  (wordParts.mapped (.total (.action .joinWord) (some (.ofInt 1)))).named (.word "identifier")

/-- A parser of known arity that is named by a text has a lexeme. -/
theorem lexeme_of_isText {p : Parser P} {n : Int} (hn : p.name.isText = true)
    (hp : p.declared = some (.ofInt n)) : p.lexeme = .ok (sequenced [p, spaces]) := by
  refine sequence_cons_cons ?_ ?_
  · simp only [summable, knownArities, List.filterMap_cons, hp]
    exact Bool.or_eq_true_iff.2 (.inr rfl)
  · simp [allNamed, hn]
    rfl

@[simp] theorem spaces_arity : (spaces : Parser P).arity = some 0 := rfl
@[simp] theorem integer_arity : (integer : Parser P).arity = some 1 := rfl
@[simp] theorem identifier_arity : (identifier : Parser P).arity = some 1 := rfl

end ParserAlgebra.Parser
