/-!
# Identity — which object is which

Equal values may be different objects, and three things depend on the difference: whether two
streams are one, whether two callables are equal, and whether two names stand for one object.  An
object is told apart by a number.

What was just made has no number yet.  It gets one before anything can hold on to it twice, from
whatever supplies the numbers (`Supply`).  Objects that are there from the start have numbers of
their own, below `firstFresh`.
-/

namespace ParserAlgebra

/-- Which object something is, if that has been settled. -/
abbrev Identity := Option Nat

/-- Two objects are one if they have the same number; without one there is nothing to compare. -/
def sameIdentity : Identity → Identity → Bool
  | some i, some j => i == j
  | _, _ => false

namespace Identity

/-! ## Objects that are there from the start -/

def ofNull : Identity := some 0

def ofBool (b : Bool) : Identity := some (if b then 2 else 1)

/-- The one absent value that stands for all. -/
def ofAbsent : Identity := some 3

/-- The one failure that stands for all. -/
def ofFailure : Identity := some 4

/-- There is only one text without characters. -/
def ofEmptyText : Identity := some 5

/-- There is only one tuple without members. -/
def ofEmptyTuple : Identity := some 6

/-- A stream that is not the one a parser was given. -/
def ofForeignText : Identity := some 7

/-- The parsers that everyone shares. -/
def ofShared (n : Nat) : Identity := some (16 + n)

/-- The constants that everyone shares. -/
def ofConstant (n : Nat) : Identity := some (32 + n)

/-- The texts of the first 256 characters are there once each. -/
def ofChar (c : Char) : Identity := if c.toNat < 256 then some (256 + c.toNat) else none

/-- The whole numbers next to zero are there once each. -/
def ofInt (i : Int) : Identity :=
  if -5 ≤ i ∧ i ≤ 256 then some (512 + (i + 5).toNat) else none

/-- A text of at most one character is the same object wherever it comes from. -/
def ofText (s : String) : Identity :=
  match s.toList with
  | [] => ofEmptyText
  | [c] => ofChar c
  | _ => none

/-- The names the library gives of its own accord, and the written forms that never vary. -/
def words : List String :=
  ["succeed", "fail", "one", "end_of_input", "digit", "letter", "whitespace", "spaces", "integer",
   "identifier", "satisfy", "<lambda>", "list", "decorator", "succeed_fn", "fail_fn", "one_fn",
   "optional_fn", "sequence_fn", "alternative_fn", "repeat0_fn", "repeat1_fn", "map_fn",
   "try_map_fn", "True", "False", "NOTHING", "<Failure>", "<iter>"]

/-- Each of these words is there once. -/
def ofWord (s : String) : Identity := (words.idxOf? s).map (800 + ·)

/-- The numbers from this one on are free. -/
def firstFresh : Nat := 1024

end Identity

/-! ## Numbers for new objects -/

/-- **Where new objects get their numbers from.** -/
class Supply (σ : Type) where
  /-- The next number, and what is left. -/
  next : σ → Identity × σ

namespace Supply

/-- Hands out all numbers from the one it is at. -/
instance counting : Supply Nat := ⟨fun n => (some n, n + 1)⟩

/-- Hands out none: new objects stay without a number, and nothing tells them apart. -/
instance silent : Supply Unit := ⟨fun u => (none, u)⟩

/-- A supply that never hands out a number. -/
class Silent (σ : Type) [Supply σ] : Prop where
  next_eq (s : σ) : next s = (none, s)

instance : Silent Unit := ⟨fun _ => rfl⟩

@[simp] theorem next_nat (n : Nat) : next n = (some n, n + 1) := rfl
@[simp] theorem next_unit (u : Unit) : next u = (none, u) := rfl

end Supply

end ParserAlgebra
