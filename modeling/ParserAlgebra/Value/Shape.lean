import ParserAlgebra.Value

/-!
# Value/Shape — composites and the values they are made of

    v ──components──▸ [x₁, …, xₙ] ──composite, unwrap──▸ v

A value is read as its components and components are written back as a value.  One component is
written bare, so a sequence with a single result hands over that result and not a list of one.
`concat` is the sum of this reading: it puts the components of several values behind one another,
opening each value once and nothing below it.
-/

namespace ParserAlgebra.Value

variable {P : Type}

/-- The value itself if there is exactly one, a composite of them otherwise. -/
def tupleOf : List (Value P) → Value P
  | [x] => x
  | xs => composite xs none

/-- What a value contributes to a sequence: a composite its members, any other value itself. -/
def components : Value P → List (Value P)
  | composite xs _ => xs
  | x => [x]

/-- The value as a composite: itself if it is one. -/
def asComposite : Value P → Value P
  | composite xs identity => composite xs identity
  | x => composite [x] none

/-- Takes a value out of the composites that hold it alone. -/
def unwrap : Value P → Value P
  | composite [x] _ => x.unwrap
  | x => x

/-- **The components of several values, one after the other, as one value.** -/
def concat (xs : List (Value P)) : Value P := (composite (xs.flatMap components) none).unwrap

/-! ## One equation per shape -/

@[simp] theorem components_composite (xs : List (Value P)) (identity : Identity) :
    (composite xs identity).components = xs := rfl

@[simp] theorem components_asComposite (x : Value P) : x.asComposite.components = x.components := by
  cases x <;> rfl

@[simp] theorem unwrap_composite_singleton (x : Value P) (identity : Identity) :
    (composite [x] identity).unwrap = x.unwrap := by rw [unwrap]

@[simp] theorem unwrap_composite_nil (identity : Identity) :
    (composite [] identity : Value P).unwrap = composite [] identity := by
  rw [unwrap]; simp

@[simp] theorem unwrap_composite_cons_cons (x y : Value P) (xs : List (Value P))
    (identity : Identity) :
    (composite (x :: y :: xs) identity).unwrap = composite (x :: y :: xs) identity := by
  rw [unwrap]; simp

@[simp] theorem tupleOf_singleton (x : Value P) : tupleOf [x] = x := rfl

@[simp] theorem concat_nil : concat ([] : List (Value P)) = composite [] none := by simp [concat]

/-- Unwrapping again changes nothing. -/
@[simp] theorem unwrap_unwrap (x : Value P) : x.unwrap.unwrap = x.unwrap := by
  fun_induction unwrap x with
  | case1 x _ ih => exact ih
  | case2 x h => rw [unwrap]; exact h

end ParserAlgebra.Value
