import ParserAlgebra.Value.Numbering
import ParserAlgebra.Value.Shape

/-!
# Proofs/WellShaped — the values that are one way of writing their components

    [x₁, …, xₙ] ──tupleOf──▸ v ──components──▸ [x₁, …, xₙ]

A value is read as components and written back, and the two undo each other only on some values: no
component may be a composite itself, or it would be opened next time, and a composite must not hold
a single component, or it would be unwrapped.  These are the *well-shaped* values.  Everything that
the library puts together from flat components is one (`wellShaped_tupleOf`, `wellShaped_concat`).
-/

namespace ParserAlgebra.Value

variable {P : Type}

def isComposite : Value P → Bool
  | composite _ _ => true
  | _ => false

/-- No value of the list is a composite. -/
def Flat (xs : List (Value P)) : Prop := ∀ x ∈ xs, x.isComposite = false

/-- **Well-shaped**: no composite, or one whose length is not one and whose members are none. -/
def WellShaped (v : Value P) : Prop :=
  ∀ xs identity, v = composite xs identity → xs.length ≠ 1 ∧ Flat xs

/-! ## Flat lists -/

theorem flat_nil : Flat ([] : List (Value P)) := fun _ hx => by simp at hx

theorem flat_cons {x : Value P} {xs : List (Value P)} :
    Flat (x :: xs) ↔ x.isComposite = false ∧ Flat xs := by
  simp [Flat]

theorem flat_singleton {x : Value P} : Flat [x] ↔ x.isComposite = false := by simp [Flat]

/-- What is chosen from flat values is flat. -/
theorem Flat.of_subset {xs ys : List (Value P)} (h : Flat xs) (hs : ys ⊆ xs) : Flat ys :=
  fun y hy => h y (hs hy)

/-! ## Well-shaped values -/

theorem wellShaped_of_isComposite {v : Value P} (h : v.isComposite = false) : v.WellShaped := by
  rintro xs identity rfl
  contradiction

@[simp] theorem wellShaped_composite {xs : List (Value P)} {identity : Identity} :
    (composite xs identity).WellShaped ↔ xs.length ≠ 1 ∧ Flat xs := by
  refine ⟨fun h => h xs identity rfl, fun h ys j hv => ?_⟩
  obtain ⟨rfl, rfl⟩ := composite.inj hv
  exact h

theorem components_of_isComposite {v : Value P} (h : v.isComposite = false) :
    v.components = [v] := by
  cases v with
  | composite xs _ => contradiction
  | _ => rfl

theorem asComposite_of_isComposite {v : Value P} (h : v.isComposite = false) :
    v.asComposite = composite [v] none := by
  cases v with
  | composite xs _ => contradiction
  | _ => rfl

theorem unwrap_of_isComposite {v : Value P} (h : v.isComposite = false) : v.unwrap = v := by
  cases v with
  | composite xs _ => contradiction
  | _ => simp [unwrap]

/-- The components of a well-shaped value are read off in one step. -/
theorem WellShaped.flat {v : Value P} (h : v.WellShaped) : Flat v.components := by
  cases hv : v.isComposite with
  | false =>
    rw [components_of_isComposite hv]
    exact flat_singleton.2 hv
  | true =>
    cases v with
    | composite xs identity => exact (h xs identity rfl).2
    | _ => contradiction

/-- A well-shaped value is as unwrapped as can be. -/
theorem WellShaped.unwrap_eq {v : Value P} (h : v.WellShaped) : v.unwrap = v := by
  cases hv : v.isComposite with
  | false => exact unwrap_of_isComposite hv
  | true =>
    cases v with
    | composite xs identity =>
      obtain ⟨hl, _⟩ := h xs identity rfl
      match xs with
      | [] => exact unwrap_composite_nil identity
      | [_] => exact absurd rfl hl
      | x :: y :: xs => exact unwrap_composite_cons_cons x y xs identity
    | _ => contradiction

/-! ## Writing components as a value -/

/-- **Flat components are written as a well-shaped value.** -/
theorem wellShaped_tupleOf {xs : List (Value P)} (h : Flat xs) : (tupleOf xs).WellShaped := by
  match xs with
  | [] => exact wellShaped_composite.2 ⟨by simp, h⟩
  | [x] => exact wellShaped_of_isComposite (flat_singleton.1 h)
  | x :: y :: xs => exact wellShaped_composite.2 ⟨by simp, h⟩

/-- **Flat components are read back as they were written.** -/
theorem components_tupleOf {xs : List (Value P)} (h : Flat xs) : (tupleOf xs).components = xs := by
  match xs with
  | [] => rfl
  | [x] => exact components_of_isComposite (flat_singleton.1 h)
  | x :: y :: xs => rfl

/-- Unwrapping a new composite of flat components writes them as a value. -/
theorem unwrap_composite {xs : List (Value P)} (h : Flat xs) :
    (composite xs none).unwrap = tupleOf xs := by
  match xs with
  | [] => exact unwrap_composite_nil none
  | [x] =>
    rw [unwrap_composite_singleton]
    exact unwrap_of_isComposite (flat_singleton.1 h)
  | x :: y :: xs => exact unwrap_composite_cons_cons x y xs none

theorem flat_flatMap_components {vs : List (Value P)} (h : ∀ v ∈ vs, v.WellShaped) :
    Flat (vs.flatMap components) := by
  intro x hx
  obtain ⟨v, hv, hx⟩ := List.mem_flatMap.1 hx
  exact (h v hv).flat x hx

/-- The components of well-shaped values, one after the other, are written as one value. -/
theorem concat_eq_tupleOf {vs : List (Value P)} (h : ∀ v ∈ vs, v.WellShaped) :
    concat vs = tupleOf (vs.flatMap components) :=
  unwrap_composite (flat_flatMap_components h)

theorem wellShaped_concat {vs : List (Value P)} (h : ∀ v ∈ vs, v.WellShaped) :
    (concat vs).WellShaped := by
  rw [concat_eq_tupleOf h]
  exact wellShaped_tupleOf (flat_flatMap_components h)

/-- Values that are no composites are components themselves. -/
theorem concat_of_flat {vs : List (Value P)} (h : Flat vs) : concat vs = tupleOf vs := by
  have same : vs.flatMap components = vs := by
    induction vs with
    | nil => rfl
    | cons v vs ih =>
      obtain ⟨hv, hvs⟩ := flat_cons.1 h
      rw [List.flatMap_cons, components_of_isComposite hv, ih hvs, List.singleton_append]
  rw [concat, same, unwrap_composite h]

theorem components_concat {vs : List (Value P)} (h : ∀ v ∈ vs, v.WellShaped) :
    (concat vs).components = vs.flatMap components := by
  rw [concat_eq_tupleOf h]
  exact components_tupleOf (flat_flatMap_components h)

/-! ## Numbering

Objects get their numbers after they were made, which changes no shape. -/

section

variable {σ : Type} [Supply σ]

@[simp] theorem isComposite_numbered (x : Value P) (s : σ) :
    (x.numbered s).1.isComposite = x.isComposite := by
  unfold numbered
  split <;> rfl

theorem flat_numberedAll {xs : List (Value P)} (h : Flat xs) (s : σ) :
    Flat (numberedAll xs s).1 := by
  induction xs generalizing s with
  | nil =>
    rw [numberedAll]
    exact flat_nil
  | cons x xs ih =>
    obtain ⟨hx, hxs⟩ := flat_cons.1 h
    rw [numberedAll]
    exact flat_cons.2 ⟨(isComposite_numbered x s).trans hx, ih hxs _⟩

theorem length_components_numbered (x : Value P) (s : σ) :
    (x.numbered s).1.components.length = x.components.length := by
  unfold numbered
  split <;> simp [components, length_numberedAll]

/-- **What is well-shaped stays so when it is numbered.** -/
theorem WellShaped.numbered {v : Value P} (h : v.WellShaped) (s : σ) :
    (v.numbered s).1.WellShaped := by
  cases hv : v.isComposite with
  | false => exact wellShaped_of_isComposite ((isComposite_numbered v s).trans hv)
  | true =>
    match v with
    | composite xs (some i) =>
      rw [numbered_composite_some]
      exact h
    | composite xs none =>
      obtain ⟨hl, hf⟩ := wellShaped_composite.1 h
      rw [Value.numbered]
      exact wellShaped_composite.2 ⟨by rwa [length_numberedAll], flat_numberedAll hf s⟩

end

end ParserAlgebra.Value
