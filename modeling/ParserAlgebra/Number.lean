import ParserAlgebra.Decimal

/-!
# Number — a number as it was written

Positions and arities are whole numbers.  Whoever declares one may write a truth value in its place,
which counts as zero or one, or a decimal fraction.  A number is shown the way it was written, and
compared by what it is.
-/

namespace ParserAlgebra

/-- **A number**: whole, or a truth value in its place, or a fraction. -/
inductive Number where
  | int (i : Int)
  | truth (b : Bool)
  | decimal (d : Decimal)
deriving DecidableEq

namespace Number

/-- The number a truth value stands for. -/
def ofTruth (b : Bool) : Int := if b then 1 else 0

/-- The whole number that is meant, unless it was written as a fraction. -/
def whole? : Number → Option Int
  | int i => some i
  | truth b => some (ofTruth b)
  | decimal _ => none

/-- The number as a fraction. -/
def toDecimal : Number → Decimal
  | int i => .ofInt i
  | truth b => .ofInt (ofTruth b)
  | decimal d => d

/-- Whether two numbers are the same, however they are written. -/
def same (m n : Number) : Bool := m.toDecimal.same n.toDecimal

def atMost (m n : Number) : Bool := m.toDecimal.atMost n.toDecimal

def lessThan (m n : Number) : Bool := !n.atMost m

/-- A sum is written as a fraction if one of its parts is. -/
def add (m n : Number) : Number :=
  match m.whole?, n.whole? with
  | some i, some j => int (i + j)
  | _, _ => decimal (m.toDecimal.add n.toDecimal)

/-- The number under the other sign. -/
def neg : Number → Number
  | int i => int (-i)
  | truth b => int (-ofTruth b)
  | decimal d => decimal d.neg

def render : Number → String
  | int i => toString i
  | truth b => if b then "True" else "False"
  | decimal d => d.render

/-- Whether a number is a position in, or at the end of, something of a size. -/
def inside (n : Number) (size : Nat) : Bool := (int 0).atMost n && n.atMost (int size)

/-- The number, or the size if that is smaller. -/
def upTo (n : Number) (size : Nat) : Number := if (int size).lessThan n then int size else n

@[simp] theorem whole?_int (i : Int) : (int i).whole? = some i := rfl

@[simp] theorem atMost_int (i j : Int) : (int i).atMost (int j) = decide (i ≤ j) := by
  simp [atMost, toDecimal, Decimal.atMost, Decimal.ofInt, Decimal.numerator_mk]

@[simp] theorem same_int (i j : Int) : (int i).same (int j) = (i == j) := by
  simp [same, toDecimal, Decimal.same, Decimal.ofInt, Decimal.numerator_mk]

@[simp] theorem lessThan_int (i j : Int) : (int i).lessThan (int j) = decide (i < j) := by
  simp [lessThan, ← decide_not]

@[simp] theorem add_int (i j : Int) : (int i).add (int j) = int (i + j) := rfl

theorem same_self (n : Number) : n.same n = true := Decimal.same_self n.toDecimal

theorem same_symm {m n : Number} (h : m.same n = true) : n.same m = true := Decimal.same_symm h

theorem same_trans {l m n : Number} (h : l.same m = true) (k : m.same n = true) :
    l.same n = true := Decimal.same_trans h k

theorem toDecimal_of_whole? {n : Number} {i : Int} (h : n.whole? = some i) :
    n.toDecimal = .ofInt i := by
  cases n with
  | int j =>
    cases h
    rfl
  | truth b =>
    cases h
    rfl
  | decimal d => cases h

/-- The sum of numbers that are whole is the whole sum. -/
theorem same_add {m n : Number} {i j : Int} (hm : m.same (int i) = true)
    (hn : n.same (int j) = true) : (m.add n).same (int (i + j)) = true := by
  unfold add
  split
  · rename_i k l hk hl
    rw [same, toDecimal_of_whole? hk] at hm
    rw [same, toDecimal_of_whole? hl] at hn
    have hki : k = i := by simpa using (same_int k i).symm.trans hm
    have hlj : l = j := by simpa using (same_int l j).symm.trans hn
    rw [hki, hlj]
    exact same_self _
  · exact Decimal.same_add hm hn

/-- A number is not less than a whole one if it is the same as one that is not. -/
theorem le_of_same {m : Number} {i j : Int} (hm : m.same (int j) = true)
    (h : m.lessThan (int i) = false) : i ≤ j := by
  have hi : (int i).atMost m = true := by simpa [lessThan] using h
  have hj : m.toDecimal.numerator = j * Decimal.scale m.toDecimal.places :=
    Decimal.same_ofInt.1 hm
  have hle : i * Decimal.scale m.toDecimal.places ≤ j * Decimal.scale m.toDecimal.places := by
    have ha := of_decide_eq_true hi
    rw [hj] at ha
    simpa [toDecimal, Decimal.ofInt, Decimal.numerator_mk] using ha
  have hpos : (0 : Int) < Decimal.scale m.toDecimal.places :=
    Int.natCast_pos.2 (Decimal.scale_pos _)
  exact Int.le_of_mul_le_mul_right hle hpos

/-- A number inside the size stays as it is. -/
theorem upTo_of_atMost {n : Number} {size : Nat} (h : n.atMost (int size) = true) :
    n.upTo size = n := by
  simp [upTo, lessThan, h]

end Number

end ParserAlgebra
