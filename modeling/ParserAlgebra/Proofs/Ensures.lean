import ParserAlgebra.Call

/-!
# Proofs/Ensures — what holds of whatever a run returns

    r ensures Q,   f a ensures R for every a with Q a   ⟹   r >>= f ensures R

Partial correctness: a run that raises or runs out of fuel ensures everything.  The supply that a
run starts with is left open.
-/

namespace ParserAlgebra.Run

variable {σ P α β : Type} {Q : α → Prop} {R : β → Prop}

/-- **Whatever the run returns satisfies `Q`.** -/
def Ensures (r : Run σ P α) (Q : α → Prop) : Prop :=
  ∀ s a, (r.start s).outcome = .ok a → Q a

theorem ensures_pure {a : α} (h : Q a) : (pure a : Run σ P α).Ensures Q := by
  intro s b hb
  cases hb
  exact h

theorem ensures_raise (e : Error P) : (raise e : Run σ P α).Ensures Q := by
  intro s a h
  contradiction

theorem ensures_exhaust : (exhaust : Run σ P α).Ensures Q := by
  intro s a h
  contradiction

/-- What a computation returns is what it came to. -/
theorem ensures_ofExcept (x : Except (Error P) α) :
    (ofExcept x : Run σ P α).Ensures fun a => x = .ok a := by
  cases x with
  | ok a => exact ensures_pure rfl
  | error e => exact ensures_raise e

theorem ensures_own [Supply σ] {v : Value P} {Q : Value P → Prop}
    (h : ∀ s : σ, Q (v.numbered s).1) : (own v : Run σ P (Value P)).Ensures Q := by
  intro s w hw
  cases hw
  exact h s

/-- A run that ensures nothing in particular. -/
theorem ensures_true (r : Run σ P α) : r.Ensures fun _ => True := fun _ _ _ => trivial

theorem Ensures.mono {r : Run σ P α} {Q' : α → Prop} (h : r.Ensures Q) (hQ : ∀ a, Q a → Q' a) :
    r.Ensures Q' := fun s a ha => hQ a (h s a ha)

/-- **What the first run ensures is what the second starts from.** -/
theorem Ensures.bind {r : Run σ P α} {f : α → Run σ P β} (h : r.Ensures Q)
    (hf : ∀ a, Q a → (f a).Ensures R) : (r >>= f).Ensures R := by
  intro s b hb
  match hr : (r.start s).outcome with
  | .ok a =>
    rw [bind_of_ok hr] at hb
    exact hf a (h s a hr) _ b hb
  | .error e =>
    rw [bind_of_error hr] at hb
    contradiction

/-- A match that was read is a success. -/
theorem ensures_readMatch (result : Value P) :
    (result.readMatch : Run σ P _).Ensures fun m =>
      ∀ v n, m = some (v, n) → ∃ identity, result = .success v n identity := by
  unfold Value.readMatch
  split
  · refine (ensures_ofExcept _).bind fun v hv => (ensures_ofExcept _).bind fun n hn => ?_
    refine ensures_pure ?_
    rintro w m ⟨⟩
    cases result with
    | success v' n' identity =>
      cases hv
      cases hn
      exact ⟨identity, rfl⟩
    | _ => contradiction
  · exact ensures_pure fun _ _ h => by contradiction

end ParserAlgebra.Run
