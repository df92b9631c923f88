/-!
# Decimal — decimal fractions, written exactly

A token may be a decimal fraction such as `2.5`.  What matters of one is how it is written, whether
it is zero, and which whole numbers and fractions it equals; so it is kept as the digits it was
written with, and two of them are compared across their denominators.
-/

namespace ParserAlgebra

/-- **A decimal fraction as it is written**: `units` over a one with `places` zeros, under a sign of
its own.  The sign is no part of `units`, so `-0.0` is written differently from `0.0` and still
equals it. -/
structure Decimal where
  negative : Bool
  units : Nat
  places : Nat
deriving DecidableEq

namespace Decimal

/-- A one with some zeros behind it: the denominator of a fraction with that many places. -/
def scale : Nat → Nat
  | 0 => 1
  | places + 1 => scale places * 10

/-- The signed numerator over the scale. -/
def numerator (d : Decimal) : Int := if d.negative then -(d.units : Int) else d.units

def isZero (d : Decimal) : Bool := d.units == 0

/-- Whether two fractions are the same number: their numerators agree over a common denominator. -/
def same (d e : Decimal) : Bool := d.numerator * scale e.places == e.numerator * scale d.places

/-- Whether a fraction is at most another: their numerators compare over a common denominator. -/
def atMost (d e : Decimal) : Bool :=
  decide (d.numerator * scale e.places ≤ e.numerator * scale d.places)

/-- A fraction without places. -/
def ofInt (i : Int) : Decimal := ⟨decide (i < 0), i.natAbs, 0⟩

/-- Two fractions added up, with as many places as the one that has more. -/
def add (d e : Decimal) : Decimal :=
  let places := max d.places e.places
  let n := d.numerator * scale (places - d.places) + e.numerator * scale (places - e.places)
  ⟨decide (n < 0), n.natAbs, places⟩

/-- The fraction under the other sign. -/
def neg (d : Decimal) : Decimal := { d with negative := !d.negative }

/-- The fraction as written: sign, whole part, point, and exactly `places` digits. -/
def render (d : Decimal) : String :=
  let fraction := toString (d.units % scale d.places)
  let zeros := String.ofList (List.replicate (d.places - fraction.length) '0')
  let sign := if d.negative then "-" else ""
  sign ++ toString (d.units / scale d.places) ++ "." ++ zeros ++ fraction

/-- The number a run of decimal digits denotes, most significant first. -/
def ofDigits (cs : List Char) : Nat := cs.foldl (fun acc c => acc * 10 + (c.toNat - '0'.toNat)) 0

/-- Reads `digits.digits`, with an optional sign; anything else is refused. -/
def ofText? (text : String) : Option Decimal :=
  let cs := text.toList
  let negative := cs.head? == some '-'
  let cs := if negative then cs.drop 1 else cs
  let whole := cs.takeWhile Char.isDigit
  match cs.dropWhile Char.isDigit with
  | '.' :: fraction =>
    if whole.isEmpty || fraction.isEmpty || !fraction.all Char.isDigit then none
    else some ⟨negative, ofDigits (whole ++ fraction), fraction.length⟩
  | _ => none

@[simp] theorem scale_zero : scale 0 = 1 := rfl

theorem scale_pos (places : Nat) : 0 < scale places := by
  induction places with
  | zero => exact Nat.one_pos
  | succ places ih => exact Nat.mul_pos ih (by decide)

/-- The zeros of a sum are those of both parts. -/
theorem scale_add (m n : Nat) : scale (m + n) = scale m * scale n := by
  induction n with
  | zero => rw [scale_zero, Nat.mul_one, Nat.add_zero]
  | succ n ih => rw [Nat.add_succ, scale, scale, ih, Nat.mul_assoc]

/-- The digits of a number denote it. -/
theorem ofDigits_toDigits (n : Nat) : ofDigits (Nat.toDigits 10 n) = n := by
  have same (cs : List Char) : ofDigits cs = Nat.ofDigitChars 10 cs 0 := by
    simp only [ofDigits, Nat.ofDigitChars_eq_foldl, Nat.mul_comm]
  rw [same, Nat.ofDigitChars_toDigits (by decide) (by decide)]

/-- A sign and a size make up a whole number again. -/
theorem numerator_mk (n : Int) (places : Nat) :
    numerator ⟨decide (n < 0), n.natAbs, places⟩ = n := by
  simp only [numerator, decide_eq_true_eq]
  split <;> omega

@[simp] theorem numerator_ofInt (i : Int) : (ofInt i).numerator = i := numerator_mk i 0

/-- The numerator of a sum is the sum over the common denominator. -/
theorem numerator_add (d e : Decimal) :
    (d.add e).numerator = d.numerator * scale (max d.places e.places - d.places) +
      e.numerator * scale (max d.places e.places - e.places) := numerator_mk _ _

theorem same_self (d : Decimal) : d.same d = true := by simp [same]

theorem same_iff {d e : Decimal} :
    d.same e = true ↔ d.numerator * scale e.places = e.numerator * scale d.places := by
  simp [same]

theorem same_symm {d e : Decimal} (h : d.same e = true) : e.same d = true :=
  same_iff.2 (same_iff.1 h).symm

/-- Being the same number is transitive: the denominator in the middle cancels. -/
theorem same_trans {d e f : Decimal} (h : d.same e = true) (k : e.same f = true) :
    d.same f = true := by
  rw [same_iff] at h k ⊢
  have hpos : (scale e.places : Int) ≠ 0 := by
    have := scale_pos e.places
    omega
  refine Int.eq_of_mul_eq_mul_right hpos ?_
  calc d.numerator * scale f.places * scale e.places
      = d.numerator * scale e.places * scale f.places := Int.mul_right_comm _ _ _
    _ = e.numerator * scale d.places * scale f.places := by rw [h]
    _ = e.numerator * scale f.places * scale d.places := Int.mul_right_comm _ _ _
    _ = f.numerator * scale e.places * scale d.places := by rw [k]
    _ = f.numerator * scale d.places * scale e.places := Int.mul_right_comm _ _ _

theorem same_ofInt {d : Decimal} {i : Int} :
    d.same (ofInt i) = true ↔ d.numerator = i * scale d.places := by
  rw [same_iff, numerator_ofInt]
  simp [ofInt]

/-- The sum of fractions that are whole is the whole sum. -/
theorem same_add {d e : Decimal} {i j : Int} (hd : d.same (ofInt i) = true)
    (he : e.same (ofInt j) = true) : (d.add e).same (ofInt (i + j)) = true := by
  rw [same_ofInt] at hd he ⊢
  have hp : (d.add e).places = max d.places e.places := rfl
  have hscale {m n : Nat} (h : m ≤ n) : (scale m : Int) * scale (n - m) = scale n := by
    rw [← Int.natCast_mul, ← scale_add, Nat.add_sub_cancel' h]
  rw [numerator_add, hd, he, hp, Int.mul_assoc, Int.mul_assoc, hscale (Nat.le_max_left _ _),
    hscale (Nat.le_max_right _ _), Int.add_mul]

end Decimal

end ParserAlgebra
