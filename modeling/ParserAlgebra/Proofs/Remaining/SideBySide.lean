import ParserAlgebra.Call
import ParserAlgebra.Proofs.Onward

/-!
# Proofs/Remaining/SideBySide — two runs of one parser, from two cursors

    r ∥ t,   f a ∥ g b  whenever a and b are related   ⟹   r >>= f ∥ t >>= g

Two cursors may be held in different ways, on different streams and at different places, and still
have the same tokens ahead (`SameAhead`).  From there one parser is run twice.  The runs are *beside*
each other if both halt for the same reason or return related values, and have taken equally much of
the supply — so that what is made next has the same number on both sides.

What is related are results (`Agree`): the same value, and cursors that have come equally far and
have the same tokens ahead again.
-/

namespace ParserAlgebra

variable {σ P α β γ δ : Type}

/-- **The same tokens are ahead**, and nothing keeps either cursor from reading them. -/
structure Cursor.SameAhead {V : Type} (c d : Cursor V) : Prop where
  left : c.Readable
  right : d.Readable
  remaining : c.remaining = d.remaining

/-! ## Running beside each other -/

/-- **How two runs end alike**: they halt for the same reason, or return values that are related. -/
inductive EndAlike (R : α → β → Prop) :
    Except (Halt (Error P)) α → Except (Halt (Error P)) β → Prop
  | halts (e) : EndAlike R (.error e) (.error e)
  | returns {a b} (h : R a b) : EndAlike R (.ok a) (.ok b)

namespace Run

/-- **Beside each other**: from any supply, both runs end alike and leave the same of it. -/
def Beside (R : α → β → Prop) (r : Run σ P α) (t : Run σ P β) : Prop :=
  ∀ s, EndAlike R (r.start s).outcome (t.start s).outcome ∧ (r.start s).supply = (t.start s).supply

theorem beside_pure {R : α → β → Prop} {a : α} {b : β} (h : R a b) :
    Beside R (pure a : Run σ P α) (pure b) := fun _ => ⟨.returns h, rfl⟩

theorem beside_exhaust {R : α → β → Prop} : Beside R (exhaust : Run σ P α) exhaust :=
  fun _ => ⟨.halts _, rfl⟩

/-- A run is beside itself. -/
theorem beside_self (r : Run σ P α) : Beside Eq r r := by
  intro s
  refine ⟨?_, rfl⟩
  cases (r.start s).outcome with
  | error e => exact .halts e
  | ok a => exact .returns rfl

theorem Beside.mono {R S : α → β → Prop} {r : Run σ P α} {t : Run σ P β} (h : Beside R r t)
    (hS : ∀ a b, R a b → S a b) : Beside S r t := by
  intro s
  obtain ⟨ho, hs⟩ := h s
  refine ⟨?_, hs⟩
  generalize (r.start s).outcome = o at ho
  generalize (t.start s).outcome = o' at ho
  cases ho with
  | halts e => exact .halts e
  | returns hab => exact .returns (hS _ _ hab)

/-- **What goes on from related values goes on beside each other.** -/
theorem Beside.bind {R : α → β → Prop} {S : γ → δ → Prop} {r : Run σ P α} {t : Run σ P β}
    {f : α → Run σ P γ} {g : β → Run σ P δ} (h : Beside R r t)
    (hf : ∀ a b, R a b → Beside S (f a) (g b)) : Beside S (r >>= f) (t >>= g) := by
  intro s
  obtain ⟨ho, hs⟩ := h s
  generalize hr : (r.start s).outcome = o at ho
  generalize ht : (t.start s).outcome = o' at ho
  cases ho with
  | halts e =>
    rw [bind_of_error hr, bind_of_error ht]
    exact ⟨.halts e, hs⟩
  | returns hab =>
    rw [bind_of_ok hr, bind_of_ok ht, hs]
    exact hf _ _ hab _

/-- The same run in front of two runs. -/
theorem beside_bind {S : γ → δ → Prop} (r : Run σ P α) {f : α → Run σ P γ} {g : α → Run σ P δ}
    (hf : ∀ a, Beside S (f a) (g a)) : Beside S (r >>= f) (r >>= g) :=
  (beside_self r).bind fun a _ h => h ▸ hf a

end Run

open Run

/-! ## Results that agree -/

namespace Value

variable {c d c' d' : Cursor (Value P)} {x y : Value P}

/-- **Cursors that have come equally far** from `c` and `d`, with the same tokens ahead.  Both are
new objects, or neither is. -/
inductive Reached (c d : Cursor (Value P)) : Value P → Value P → Prop
  | mk {c' d' i j n} (hc : c.Onward n c') (hd : d.Onward n d') (h : c'.SameAhead d')
      (hij : i.isSome = j.isSome) : Reached c d (.cursor c' i) (.cursor d' j)

/-- **Results that agree**: two failures, or matches of the same value with cursors that have come
equally far. -/
inductive Agree (c d : Cursor (Value P)) : Value P → Value P → Prop
  | failure : Agree c d .failure .failure
  | success {v n m k} (h : Reached c d n m) : Agree c d (.success v n k) (.success v m k)

theorem reached_self (h : c.SameAhead d) {i j : Identity} (hij : i.isSome = j.isSome) :
    Reached c d (.cursor c i) (.cursor d j) :=
  .mk (Cursor.onward_zero h.left.exists_place) (Cursor.onward_zero h.right.exists_place) h hij

theorem Reached.trans {i j : Identity} (h : Reached c d (.cursor c' i) (.cursor d' j))
    (k : Reached c' d' x y) : Reached c d x y := by
  obtain ⟨hc, hd, _, _⟩ := h
  obtain ⟨hc', hd', h, hij⟩ := k
  exact .mk (hc.trans hc') (hd.trans hd') h hij

theorem Agree.trans {i j : Identity} (h : Reached c d (.cursor c' i) (.cursor d' j))
    (k : Agree c' d' x y) : Agree c d x y := by
  cases k with
  | failure => exact .failure
  | success k => exact .success (h.trans k)

/-- Results that agree are both matches, or neither is. -/
theorem Agree.isTruthy_eq (h : Agree c d x y) : x.isTruthy = y.isTruthy := by
  cases h <;> rfl

section

variable [Supply σ]

/-- Cursors are numbered alike. -/
theorem Reached.numbered (h : Reached c d x y) (s : σ) :
    Reached c d (x.numbered s).1 (y.numbered s).1 ∧ (x.numbered s).2 = (y.numbered s).2 := by
  obtain @⟨c', d', i, j, n, hc, hd, h, hij⟩ := h
  rw [numbered_cursor, numbered_cursor]
  match i, j with
  | some i, some j => exact ⟨.mk hc hd h rfl, rfl⟩
  | none, none => exact ⟨.mk hc hd h rfl, rfl⟩
  | some _, none => contradiction
  | none, some _ => contradiction

/-- **Results that agree are numbered alike**, with the value inside. -/
theorem Agree.numbered (h : Agree c d x y) (s : σ) :
    Agree c d (x.numbered s).1 (y.numbered s).1 ∧ (x.numbered s).2 = (y.numbered s).2 := by
  cases h with
  | failure =>
    rw [numbered_failure]
    exact ⟨.failure, rfl⟩
  | @success v n m k h =>
    cases k with
    | some k =>
      rw [numbered_success_some, numbered_success_some]
      exact ⟨.success h, rfl⟩
    | none =>
      obtain ⟨hnm, hs⟩ := h.numbered (v.numbered s).2
      rw [numbered_success_none, numbered_success_none]
      simp only [hs, and_true]
      exact .success hnm

end

end Value

end ParserAlgebra
