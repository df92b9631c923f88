import ParserAlgebra.Catalogue.Functions
import ParserAlgebra.Proofs.Calls

/-!
# Proofs/Folds — folds from the front and from the back

    foldl step  a [x₁, …, xₙ]  =  step (… step (step a x₁) x₂ …) xₙ        x₁ first
    foldr step  [x₁, …, xₙ] a  =  step x₁ (step x₂ (… step xₙ a))          xₙ first

A step is any callable that computes a function `g` of two values, which may raise an error.
Folding with it is folding with `g`: one call after the other, each with what the one before
returned, up to the first that raises.  Which calls are made is part of the statement.

What is folded is any value with elements.  From the back, some are read by their places and others
have to be listed first, which comes to the same elements in reverse (`Value.reversed_eq`).  So the
fold from the back is the fold from the front over the reverse, with a step that takes its arguments
the other way round (`alike_foldr_flipped`).
-/

namespace ParserAlgebra

variable {P : Type}

open Value

/-! ## Folding with a function that may raise -/

section

variable {α β ε : Type} {g : β → α → Except ε β} {f : α → β → Except ε β} {xs : List α} {a : β}
  {e : ε}

/-- **The first error from the front**: what comes before it folds to a value, and with that the
function raises it. -/
theorem foldlM_eq_error_iff : xs.foldlM g a = .error e ↔
    ∃ ys x zs b, xs = ys ++ x :: zs ∧ ys.foldlM g a = .ok b ∧ g b x = .error e := by
  constructor
  · intro h
    induction xs generalizing a with
    | nil => contradiction
    | cons x xs ih =>
      rw [List.foldlM_cons] at h
      match hx : g a x with
      | .error e' =>
        rw [hx] at h
        cases h
        exact ⟨[], x, xs, a, rfl, rfl, hx⟩
      | .ok b =>
        rw [hx] at h
        obtain ⟨ys, y, zs, c, rfl, hys, hy⟩ := ih h
        refine ⟨x :: ys, y, zs, c, rfl, ?_, hy⟩
        rw [List.foldlM_cons, hx]
        exact hys
  · rintro ⟨ys, x, zs, b, rfl, hys, hx⟩
    rw [List.foldlM_append, hys]
    show (x :: zs).foldlM g b = .error e
    rw [List.foldlM_cons, hx]
    rfl

/-- **The first error from the back**: what comes behind it folds to a value. -/
theorem foldrM_eq_error_iff : xs.foldrM f a = .error e ↔
    ∃ ys x zs b, xs = ys ++ x :: zs ∧ zs.foldrM f a = .ok b ∧ f x b = .error e := by
  rw [← List.foldlM_reverse, foldlM_eq_error_iff]
  constructor
  · rintro ⟨ys, x, zs, b, hxs, hys, hx⟩
    refine ⟨zs.reverse, x, ys.reverse, b, ?_, ?_, hx⟩
    · rw [← List.reverse_reverse xs, hxs]
      simp
    · rw [← List.foldlM_reverse, List.reverse_reverse, hys]
  · rintro ⟨ys, x, zs, b, rfl, hzs, hx⟩
    refine ⟨zs.reverse, x, ys.reverse, b, by simp, ?_, hx⟩
    rw [List.foldlM_reverse, hzs]

end

/-! ## The calls of a fold -/

section

variable (step : Callable P) (g : Value P → Value P → Except (Error P) (Value P))

/-- **The calls from the front**: one for each element, for as long as they return. -/
def callsLeft : Value P → List (Value P) → List (Call P)
  | _, [] => []
  | a, x :: xs => (step, [a, x]) :: match g a x with
    | .ok b => callsLeft b xs
    | .error _ => []

/-- **The calls from the back**: those for what is behind an element, and then its own, if they came
to a value. -/
def callsRight (a : Value P) : List (Value P) → List (Call P)
  | [] => []
  | x :: xs => callsRight a xs ++ match xs.foldrM g a with
    | .ok b => [(step, [x, b])]
    | .error _ => []

variable {step g} {xs ys : List (Value P)} {a b x : Value P} {e : Error P}

/-- **The call that raises is the last**: those before it are the calls for what is in front. -/
theorem callsLeft_of_raises (hys : ys.foldlM g a = .ok b) (hx : g b x = .error e) :
    callsLeft step g a (ys ++ x :: xs) = callsLeft step g a ys ++ [(step, [b, x])] := by
  induction ys generalizing a with
  | nil =>
    cases hys
    simp [callsLeft, hx]
  | cons y ys ih =>
    rw [List.foldlM_cons] at hys
    match hy : g a y with
    | .ok c =>
      rw [hy] at hys
      simp [callsLeft, hy, ih hys]
    | .error e' =>
      rw [hy] at hys
      contradiction

/-- From the back as well: what is in front of it is not called for. -/
theorem callsRight_of_raises (hxs : xs.foldrM g a = .ok b) (hx : g x b = .error e) :
    callsRight step g a (ys ++ x :: xs) = callsRight step g a xs ++ [(step, [x, b])] := by
  induction ys with
  | nil => simp [callsRight, hxs]
  | cons y ys ih =>
    have raised : (ys ++ x :: xs).foldrM g a = .error e :=
      foldrM_eq_error_iff.2 ⟨ys, x, xs, b, rfl, hxs, hx⟩
    simp [callsRight, raised, ih]

end

/-! ## What the folds come to -/

variable [Primitive P] {rules : String → Option (Value P)} {step : Callable P}
  {g : Value P → Value P → Except (Error P) (Value P)} {items a : Value P} {xs : List (Value P)}

section

variable (rules step g)

/-- **The step computes `g`**: called with any two values it answers, or raises, what `g` does. -/
def Computes : Prop := ∀ x y, Returns rules step [x, y] (g x y)

/-- **A step with its arguments the other way round.** -/
def Flips (flipped : Callable P) : Prop :=
  ∀ x y r, Returns rules flipped [x, y] r ↔ Returns rules step [y, x] r

variable (a items xs)

/-- **What the fold from the front does**, over the elements `xs` and with a step for `g`: it ends
as `g` folded from the left, and its calls are those up to the first that raises. -/
structure FoldsFromFront : Prop where
  ends : Ends (fun n => call (quiet rules) n (.mapper (.foldl step)) [a, items]) (xs.foldlM g a)
  makes : Makes ((Action.foldLeft step).recorded rules [a, items]) (callsLeft step g a xs)
    (xs.foldlM g a)
  raises_iff : ∀ e, Raises (fun n => call (quiet rules) n (.mapper (.foldl step)) [a, items]) e ↔
    ∃ ys x zs b, xs = ys ++ x :: zs ∧ ys.foldlM g a = .ok b ∧ g b x = .error e ∧
      callsLeft step g a xs = callsLeft step g a ys ++ [(step, [b, x])]

/-- **What the fold from the back does**: it reads the elements in reverse and ends as `g` folded
from the right, the last element first. -/
structure FoldsFromBack : Prop where
  reads : items.reversed = .ok xs.reverse
  ends : Ends (fun n => call (quiet rules) n (.mapper (.foldr step)) [items, a]) (xs.foldrM g a)
  makes : Makes ((Action.foldRight step).recorded rules [items, a]) (callsRight step g a xs)
    (xs.foldrM g a)
  raises_iff : ∀ e, Raises (fun n => call (quiet rules) n (.mapper (.foldr step)) [items, a]) e ↔
    ∃ ys x zs b, xs = ys ++ x :: zs ∧ zs.foldrM g a = .ok b ∧ g x b = .error e ∧
      callsRight step g a xs = callsRight step g a zs ++ [(step, [x, b])]

end

/-- A mapper that always produces a value ends as its function does. -/
theorem alike_total (f : Callable P) (declared : Option (Value P)) (args : List (Value P)) :
    Alike (fun n => call (quiet rules) n (.mapper (.total f declared)) args) fun n =>
      call (quiet rules) n f args := by
  refine .of_succ fun n => ?_
  simp only [call, Mapper.apply, Run.own_unit, bind_pure]

section

variable (h : items.elements = .ok xs)

include h

/-- The fold from the front is a fold of the elements. -/
theorem recorded_foldLeft (n : Nat) : (Action.foldLeft step).recorded rules [a, items] n =
    xs.foldlM (fun acc x => Invoke.recorded (call (quiet rules) n) step [acc, x]) a := by
  simp only [Action.recorded, Action.apply, Action.foldLeftWith, read_silent h, pure_bind]

/-- So is the fold from the back: the loop over the reverse is the fold from the right. -/
theorem recorded_foldRight (n : Nat) : (Action.foldRight step).recorded rules [items, a] n =
    xs.foldrM (fun x acc => Invoke.recorded (call (quiet rules) n) step [x, acc]) a := by
  simp only [Action.recorded, Action.apply, Action.foldRightWith, readReversed_silent h, pure_bind,
    List.foldlM_reverse]

variable (hg : Computes rules step g) (a)

include hg

/-- **From the front**, each call goes on from what the one before returned. -/
theorem makes_foldLeft : Makes ((Action.foldLeft step).recorded rules [a, items])
    (callsLeft step g a xs) (xs.foldlM g a) := by
  rw [funext (recorded_foldLeft h)]
  -- what is folded only matters by its elements, and those in front have been dealt with
  clear h
  induction xs generalizing a with
  | nil => exact makes_pure a
  | cons x xs ih =>
    simp only [List.foldlM_cons, callsLeft]
    have first := makes_call (hg a x)
    match hx : g a x with
    | .ok b => exact (hx ▸ first).bind (ih b)
    | .error e => exact (hx ▸ first).bind_error _

/-- **From the back**, what is behind an element is folded before its own call. -/
theorem makes_foldRight : Makes ((Action.foldRight step).recorded rules [items, a])
    (callsRight step g a xs) (xs.foldrM g a) := by
  rw [funext (recorded_foldRight h)]
  -- the loop goes from the back, so the calls for what is behind an element are the earlier ones
  clear h
  induction xs with
  | nil => exact makes_pure a
  | cons x xs ih =>
    simp only [List.foldrM_cons, callsRight]
    match hxs : xs.foldrM g a with
    | .ok b => exact (hxs ▸ ih).bind (makes_call (hg x b))
    | .error e =>
      rw [List.append_nil]
      exact (hxs ▸ ih).bind_error _

/-- **What the fold from the front does.** -/
theorem foldsFromFront : FoldsFromFront rules step g items a xs := by
  have made := makes_foldLeft a h hg
  have ended : Ends (fun n => call (quiet rules) n (.mapper (.foldl step)) [a, items])
      (xs.foldlM g a) := (alike_total _ _ _ _).2 made.ends
  refine ⟨ended, made, fun e => ?_⟩
  rw [Raises, ended.iff_eq, eq_comm, foldlM_eq_error_iff]
  refine exists₄_congr fun ys x zs b => ⟨?_, fun ⟨hxs, hys, hx, _⟩ => ⟨hxs, hys, hx⟩⟩
  rintro ⟨rfl, hys, hx⟩
  exact ⟨rfl, hys, hx, callsLeft_of_raises hys hx⟩

/-- **What the fold from the back does.** -/
theorem foldsFromBack : FoldsFromBack rules step g items a xs := by
  have made := makes_foldRight a h hg
  have ended : Ends (fun n => call (quiet rules) n (.mapper (.foldr step)) [items, a])
      (xs.foldrM g a) := (alike_total _ _ _ _).2 made.ends
  have reads : items.reversed = .ok xs.reverse := by rw [reversed_eq, h]; rfl
  refine ⟨reads, ended, made, fun e => ?_⟩
  rw [Raises, ended.iff_eq, eq_comm, foldrM_eq_error_iff]
  refine exists₄_congr fun ys x zs b => ⟨?_, fun ⟨hxs, hzs, hx, _⟩ => ⟨hxs, hzs, hx⟩⟩
  rintro ⟨rfl, hzs, hx⟩
  exact ⟨rfl, hzs, hx, callsRight_of_raises hzs hx⟩

/-- **The fold from the back is the fold from the front** over the reverse, with the step's
arguments the other way round. -/
theorem alike_foldr_flipped {flipped : Callable P} (hf : Flips rules step flipped) (i : Identity) :
    Alike (fun n => call (quiet rules) n (.mapper (.foldr step)) [items, a]) fun n =>
      call (quiet rules) n (.mapper (.foldl flipped)) [a, .list xs.reverse i] := by
  have computes : Computes rules flipped fun x y => g y x := fun x y => (hf x y _).2 (hg y x)
  have front := (foldsFromFront a (elements_list xs.reverse i) computes).ends
  rw [List.foldlM_reverse] at front
  exact .of_ends (foldsFromBack a h hg).ends front

end

/-! ## Steps -/

/-- **A function that calls nothing** computes what it answers. -/
theorem computes_of_answers {t : P} (ht : ∀ x y, Primitive.call t [x, y] = .ofExcept (g x y)) :
    Computes rules (.action (.primitive t)) g := by
  refine fun x y => ⟨1, ?_⟩
  simp only [call, Action.apply, ht, Conduct.follow_ofExcept, Run.own_unit, bind_pure,
    Run.outcome_ofExcept]

/-- **A function that only calls the step** with its arguments exchanged flips it. -/
theorem flips_of_calls {t : P} {i : Identity} (ht : ∀ x y,
    Primitive.call t [x, y] = .calls (.callable step i) [y, x] .answers) :
    Flips rules step (.action (.primitive t)) := by
  intro x y r
  have called (n : Nat) : (call (quiet rules) (n + 1) (.action (.primitive t)) [x, y] :
      Run Unit P _) = call (quiet rules) n step [y, x] := by
    simp only [call, Action.apply, ht, Conduct.follow, invokeWith, Run.own_unit, Run.ownAll_unit,
      bind_pure, pure_bind]
  simp only [returns_iff_ends]
  exact Alike.of_succ called r

/-! ## Both folds -/

/-- **The folds are those of lists, whatever is folded, and dual to each other.**  Take a step that
computes `g`, and any value with the elements `xs`.  The fold from the front ends as `g` folded from
the left, the one from the back as `g` folded from the right, however the elements are read from
there; without elements both return `a`.  Each makes its calls in order, up to the first that raises,
and raises the same.  The fold from the back ends as the one from the front does over the reverse,
with a flipped step, such as a function that only calls the step with its arguments exchanged. -/
theorem folds_in_order (hg : Computes rules step g) (h : items.elements = .ok xs) (a : Value P) :
    FoldsFromFront rules step g items a xs ∧ FoldsFromBack rules step g items a xs ∧
    (∀ flipped i, Flips rules step flipped →
      Alike (fun n => call (quiet rules) n (.mapper (.foldr step)) [items, a]) fun n =>
        call (quiet rules) n (.mapper (.foldl flipped)) [a, .list xs.reverse i]) ∧
    ∀ t i, (∀ x y, Primitive.call t [x, y] = .calls (.callable step i) [y, x] .answers) →
      Flips rules step (.action (.primitive t)) :=
  ⟨foldsFromFront a h hg, foldsFromBack a h hg, fun _ i hf => alike_foldr_flipped a h hg hf i,
    fun _ _ => flips_of_calls⟩

/-- **Functions of two values**, and the same with their arguments exchanged. -/
inductive Exchangeable where
  | straight (f : ValueFunction)
  | exchanged (f : ValueFunction)

instance : Primitive Exchangeable where
  label
    | .straight f => f.label
    | .exchanged f => f.label
  call
    | .exchanged f, [x, y] => .calls (.ofAction (.primitive (.straight f))) [y, x] .answers
    | .straight f, args => .ofExcept (f.call args)
    | .exchanged f, args => .raises (wrongCount f.label args.length)

/-- Differences of numbers that can be read but once, from the back: `1 - (2 - 10)`.  With a letter
among the numbers they raise, and what is beyond the letter is not called for. -/
theorem differences_folded :
    let rules : String → Option (Value Exchangeable) := fun _ => none
    let sub : Callable Exchangeable := .action (.primitive (.straight .sub))
    let flipped : Callable Exchangeable := .action (.primitive (.exchanged .sub))
    let once : Value Exchangeable := .iterable [.ofInt 1, .ofInt 2] none
    let mixed : Value Exchangeable := .tuple [.ofInt 1, .ofText "x", .ofInt 2] none
    Computes rules sub (fun x y => ValueFunction.sub.call [x, y]) ∧ Flips rules sub flipped ∧
    Comes (fun n => call (quiet rules) n (.mapper (.foldr sub)) [once, .ofInt 10]) (.ofInt 9) ∧
    Comes (fun n => call (quiet rules) n (.mapper (.foldl flipped))
      [.ofInt 10, .list [.ofInt 2, .ofInt 1] none]) (.ofInt 9) ∧
    Makes ((Action.foldLeft sub).recorded rules [.ofInt 10, mixed])
      [(sub, [.ofInt 10, .ofInt 1]), (sub, [.ofInt 9, .ofText "x"])]
      (.error (badArgument "sub")) ∧
    Makes ((Action.foldRight sub).recorded rules [mixed, .ofInt 10])
      [(sub, [.ofInt 2, .ofInt 10]), (sub, [.ofText "x", .ofInt (-8)])]
      (.error (badArgument "sub")) := by
  intro rules sub flipped once mixed
  have computes : Computes rules sub fun x y => ValueFunction.sub.call [x, y] :=
    computes_of_answers fun _ _ => rfl
  have listed : once.elements = .ok [.ofInt 1, .ofInt 2] := rfl
  have listed' : mixed.elements = .ok [.ofInt 1, .ofText "x", .ofInt 2] := rfl
  obtain ⟨-, difference, dual, flips⟩ := folds_in_order computes listed (.ofInt 10)
  obtain ⟨front, back, -, -⟩ := folds_in_order computes listed' (.ofInt 10)
  have exchanged : Flips rules sub flipped := flips (.exchanged .sub) none fun _ _ => rfl
  exact ⟨computes, exchanged, difference.ends, (dual _ none exchanged _).1 difference.ends,
    front.makes, back.makes⟩

end ParserAlgebra
