/-!
# ArgumentCount — how many arguments a call may have

Operations and functions say how many arguments they take, and turn away any other number before
they look at the arguments themselves.
-/

namespace ParserAlgebra

/-- **A range of argument counts**, open at the top if `most` is missing. -/
structure ArgumentCount where
  least : Nat
  most : Option Nat
deriving DecidableEq

namespace ArgumentCount

def any : ArgumentCount := ⟨0, none⟩

def exactly (n : Nat) : ArgumentCount := ⟨n, some n⟩

def atLeast (n : Nat) : ArgumentCount := ⟨n, none⟩

def between (least most : Nat) : ArgumentCount := ⟨least, some most⟩

/-- Whether a call may have `n` arguments. -/
def admits (c : ArgumentCount) (n : Nat) : Bool :=
  decide (c.least ≤ n) && c.most.all fun most => decide (n ≤ most)

@[simp] theorem admits_any (n : Nat) : any.admits n = true := by simp [any, admits]

/-- A single count admits itself only. -/
@[simp] theorem admits_exactly (m n : Nat) : (exactly m).admits n = (n == m) := by
  change (decide (m ≤ n) && decide (n ≤ m)) = (n == m)
  rw [Bool.eq_iff_iff, Bool.and_eq_true, decide_eq_true_iff, decide_eq_true_iff, beq_iff_eq]
  omega

end ArgumentCount

end ParserAlgebra
