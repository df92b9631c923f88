import Mathlib.Data.Set.Defs

/-!
# Proofs/Streak — one step after another, until there is none

    c₀ ──v₀──▸ c₁ ──v₁──▸ … ──vₖ₋₁──▸ cₖ        stop at cₖ

A loop goes from cursor to cursor for as long as there is a step, and each step has a value.  What
it comes by in the end is a *streak*: the steps in order, each with the cursor behind it.  If the
steps are determined by where they start, so is the streak (`Streak.unique`), and if every step
makes something smaller, there is one (`exists_streak`).
-/

namespace ParserAlgebra

variable {γ α β : Type} {step : γ → α → γ → Prop} {stop : γ → Prop}

/-- **Steps for as long as there are any**: each starts behind the one before it, and behind the
last there is a stop.  A step is listed with its value and with what is behind it. -/
inductive Streak (step : γ → α → γ → Prop) (stop : γ → Prop) : γ → List (α × γ) → γ → Prop
  | nil {c} (h : stop c) : Streak step stop c [] c
  | cons {c v d vs e} (h : step c v d) (hs : Streak step stop d vs e) :
    Streak step stop c ((v, d) :: vs) e

namespace Streak

/-- The values of some steps. -/
def values (vs : List (α × γ)) : List α := vs.map Prod.fst

@[simp] theorem values_nil : values ([] : List (α × γ)) = [] := rfl

@[simp] theorem values_cons (v : α) (d : γ) (vs : List (α × γ)) :
    values ((v, d) :: vs) = v :: values vs := rfl

@[simp] theorem values_map (f : α → β) (vs : List (α × γ)) :
    values (vs.map (Prod.map f id)) = (values vs).map f := by simp [values]

/-- A streak stops where there is a stop. -/
theorem stopped {c e : γ} {vs : List (α × γ)} (h : Streak step stop c vs e) : stop e := by
  induction h with
  | nil h => exact h
  | cons _ _ ih => exact ih

/-- What holds of the value of every step holds of all values of a streak. -/
theorem forall_values {Q : α → Prop} (hstep : ∀ c v d, step c v d → Q v) {c e : γ}
    {vs : List (α × γ)} (h : Streak step stop c vs e) : ∀ v ∈ values vs, Q v := by
  induction h with
  | nil => exact nofun
  | cons h _ ih => exact List.forall_mem_cons.2 ⟨hstep _ _ _ h, ih⟩

/-- **A streak is determined by where it starts**, if steps are, and if there is none at a stop. -/
theorem unique {c e e' : γ} {vs ws : List (α × γ)} (h : Streak step stop c vs e)
    (k : Streak step stop c ws e') (hstep : ∀ c v d w e, step c v d → step c w e → w = v ∧ e = d)
    (hstop : ∀ c v d, step c v d → ¬stop c) : ws = vs ∧ e' = e := by
  induction h generalizing ws with
  | nil h =>
    cases k with
    | nil => exact ⟨rfl, rfl⟩
    | cons k _ => exact absurd h (hstop _ _ _ k)
  | cons h _ ih =>
    cases k with
    | nil k => exact absurd k (hstop _ _ _ h)
    | cons k ks =>
      obtain ⟨rfl, rfl⟩ := hstep _ _ _ _ _ h k
      obtain ⟨rfl, rfl⟩ := ih ks
      exact ⟨rfl, rfl⟩

/-- **A streak of one kind is a streak of another**, with the values changed, if the steps are. -/
theorem map {step' : γ → β → γ → Prop} {stop' : γ → Prop} (f : α → β)
    (hstep : ∀ c v d, step c v d → step' c (f v) d) (hstop : ∀ c, stop c → stop' c) {c e : γ}
    {vs : List (α × γ)} (h : Streak step stop c vs e) :
    Streak step' stop' c (vs.map (Prod.map f id)) e := by
  induction h with
  | nil h => exact .nil (hstop _ h)
  | cons h _ ih => exact .cons (hstep _ _ _ h) ih

/-- The same steps may be of another kind as well. -/
theorem mono {step' : γ → α → γ → Prop} {stop' : γ → Prop}
    (hstep : ∀ c v d, step c v d → step' c v d) (hstop : ∀ c, stop c → stop' c) {c e : γ}
    {vs : List (α × γ)} (h : Streak step stop c vs e) : Streak step' stop' c vs e := by
  simpa using h.map id hstep hstop

end Streak

/-- **There is a streak if every step makes something smaller.**  It has no more steps than can be
made smaller. -/
theorem exists_streak (size : γ → Nat) {inside : Set γ}
    (h : ∀ c ∈ inside, stop c ∨ ∃ v, ∃ d ∈ inside, step c v d ∧ size d < size c) {c : γ}
    (hc : c ∈ inside) :
    ∃ vs, ∃ e ∈ inside, Streak step stop c vs e ∧ vs.length + size e ≤ size c := by
  induction hn : size c using Nat.strongRecOn generalizing c with
  | _ n ih =>
    obtain hstop | ⟨v, d, hd, hstep, hlt⟩ := h c hc
    · exact ⟨[], c, hc, .nil hstop, by simp [hn]⟩
    · obtain ⟨vs, e, he, hs, hle⟩ := ih (size d) (hn ▸ hlt) hd rfl
      refine ⟨(v, d) :: vs, e, he, .cons hstep hs, ?_⟩
      simp only [List.length_cons]
      omega

end ParserAlgebra
