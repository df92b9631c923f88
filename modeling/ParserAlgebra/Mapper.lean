import ParserAlgebra.Error

/-!
# Mapper — from the components of a value to a new value

A mapper is called with the components of what a parser produced.  Two numbers are known of it
before it is ever called: how many components it `requires`, and how many it produces from a given
number of them (`resultArity`).  Only a selection requires any, and only a filter passes its input
arity on.

A *fallible* mapper answers with an optional value and may so refuse the match.  Any mapper can be
read as fallible (`asFallible`); a selection is then an ordinary function, which no longer says what
it requires.
-/

namespace ParserAlgebra.Mapper

variable {P : Type}

/-- The smallest number of components the mapper can be applied to. -/
def requires : Mapper P → Nat
  | select indices => indices.foldl max 0 + 1
  | _ => 0

/-- How many components the mapper is declared to produce. -/
def declared : Mapper P → Option (Value P)
  | total _ n => n
  | select indices => some (.ofInt indices.length)
  | fallible _ n => n
  | filter _ => some (.ofInt 1)

/-- How many components come out if `input` components go in. -/
def resultArity (m : Mapper P) (input : Option (Value P)) : Option (Value P) :=
  match m with
  | filter _ => input
  | m => m.declared

def isFallible : Mapper P → Bool
  | fallible _ _ => true
  | filter _ => true
  | _ => false

/-- The mapper with its answers read as optional values. -/
def asFallible : Mapper P → Mapper P
  | total f n => fallible f n
  | select indices => fallible (.action (.choose indices)) (some (.ofInt indices.length))
  | m => m

/-- A plain callable is a total mapper of one component; a mapper is itself. -/
def ofCallable : Callable P → Mapper P
  | .mapper m => m
  | f => total f (some (.ofInt 1))

/-- A plain callable is a fallible mapper of one component; a mapper is read as fallible. -/
def fallibleOfCallable : Callable P → Mapper P
  | .mapper m => m.asFallible
  | f => fallible f (some (.ofInt 1))

/-- A selection of at least one index. -/
def select? : List Nat → Except (Error P) (Mapper P)
  | [] => .error (.grammar .noIndices)
  | indices => .ok (select indices)

/-- Takes an initial value and a collection, and folds it from the front. -/
def foldl (step : Callable P) : Mapper P := total (.action (.foldLeft step)) (some (.ofInt 1))

/-- Takes a collection and an initial value, and folds it from the back. -/
def foldr (step : Callable P) : Mapper P := total (.action (.foldRight step)) (some (.ofInt 1))

/-- Drops all components. -/
def discard : Mapper P := total (.action .discard) (some (.ofInt 0))

@[simp] theorem isFallible_asFallible (m : Mapper P) : m.asFallible.isFallible = true := by
  cases m <;> rfl

/-- Every index of a selection lies below what it requires. -/
theorem lt_requires_select {indices : List Nat} {i : Nat} (h : i ∈ indices) :
    i < (select indices : Mapper P).requires := by
  have bound : ∀ (is : List Nat) (m : Nat), m ≤ is.foldl max m ∧ ∀ i ∈ is, i ≤ is.foldl max m := by
    intro is
    induction is with
    | nil => intro m; simp
    | cons j js ih =>
      intro m
      have hj := ih (max m j)
      refine ⟨Nat.le_trans (Nat.le_max_left m j) hj.1, ?_⟩
      intro i hi
      rcases List.mem_cons.1 hi with rfl | hi
      · exact Nat.le_trans (Nat.le_max_right m i) hj.1
      · exact hj.2 i hi
  exact Nat.lt_succ_of_le ((bound indices 0).2 i h)

/-- A selection requires no more than what all its indices lie below. -/
theorem requires_select_le {indices : List Nat} {n : Nat} (hn : 0 < n) (h : ∀ i ∈ indices, i < n) :
    (select indices : Mapper P).requires ≤ n := by
  have bound (is : List Nat) (m : Nat) (hm : m < n) (h : ∀ i ∈ is, i < n) : is.foldl max m < n := by
    induction is generalizing m with
    | nil => exact hm
    | cons i is ih =>
      obtain ⟨hi, his⟩ := List.forall_mem_cons.1 h
      exact ih (max m i) (Nat.max_lt.2 ⟨hm, hi⟩) his
  exact bound indices 0 hn h

end ParserAlgebra.Mapper
