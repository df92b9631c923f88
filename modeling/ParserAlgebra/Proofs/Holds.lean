import ParserAlgebra.Proofs.Ensures

/-!
# Proofs/Holds — what holds of how a run ends, from a given supply

    r at s gives a and leaves s'        r.Gives s a s'
    r at s gives what satisfies Q, or raises what satisfies E        r.Holds s Q E

Here the supply is kept in view, so that a statement can be about one particular run and the runs
that it was made of.  A run that is out of fuel satisfies everything.
-/

namespace ParserAlgebra.Run

variable {σ P α β : Type}

/-- **The run, started with `s`, returns `a` and leaves `s'`.** -/
def Gives (r : Run σ P α) (s : σ) (a : α) (s' : σ) : Prop :=
  (r.start s).outcome = .ok a ∧ (r.start s).supply = s'

section

variable {r : Run σ P α} {f : α → Run σ P β} {s t u : σ} {a : α} {b : β}

theorem gives_pure (a : α) (s : σ) : (pure a : Run σ P α).Gives s a s := ⟨rfl, rfl⟩

theorem gives_own [Supply σ] (v : Value P) (s : σ) :
    (own v).Gives s (v.numbered s).1 (v.numbered s).2 := ⟨rfl, rfl⟩

/-- A run that went on from a return ends as what it went on with. -/
theorem Gives.outcome_bind (h : r.Gives s a t) (f : α → Run σ P β) :
    ((r >>= f).start s).outcome = ((f a).start t).outcome := by
  obtain ⟨ha, rfl⟩ := h
  rw [bind_of_ok ha]

theorem Gives.bind (h : r.Gives s a t) (k : (f a).Gives t b u) : (r >>= f).Gives s b u := by
  obtain ⟨ha, rfl⟩ := h
  obtain ⟨hb, rfl⟩ := k
  unfold Gives
  rw [bind_of_ok ha]
  exact ⟨hb, rfl⟩

/-- A run that halted ends as it did. -/
theorem outcome_bind_of_halt {h : Halt (Error P)} (hr : (r.start s).outcome = .error h)
    (f : α → Run σ P β) : ((r >>= f).start s).outcome = .error h := by
  rw [bind_of_error hr]

end

/-- **Whatever the run returns from `s` satisfies `Q`, and whatever it raises satisfies `E`.** -/
structure Holds (r : Run σ P α) (s : σ) (Q : α → σ → Prop) (E : Error P → Prop) : Prop where
  returned : ∀ a s', r.Gives s a s' → Q a s'
  raised : ∀ e, (r.start s).outcome = .error (.raised e) → E e

variable {r : Run σ P α} {s : σ} {Q : α → σ → Prop} {R : β → σ → Prop} {E : Error P → Prop}

theorem holds_pure {a : α} (h : Q a s) : (pure a : Run σ P α).Holds s Q E := by
  refine ⟨?_, fun e he => by contradiction⟩
  rintro b s' ⟨hb, rfl⟩
  cases hb
  exact h

theorem holds_raise {e : Error P} (h : E e) : (raise e : Run σ P α).Holds s Q E := by
  refine ⟨fun a s' ha => ?_, fun e' he => ?_⟩
  · cases ha.1
  · cases he
    exact h

theorem holds_exhaust : (exhaust : Run σ P α).Holds s Q E := by
  refine ⟨fun a s' ha => ?_, fun e he => ?_⟩
  · cases ha.1
  · cases he

theorem holds_ofExcept {x : Except (Error P) α} (hQ : ∀ a, x = .ok a → Q a s)
    (hE : ∀ e, x = .error e → E e) : (ofExcept x).Holds s Q E := by
  cases x with
  | ok a => exact holds_pure (hQ a rfl)
  | error e => exact holds_raise (hE e rfl)

/-- An entry is written or left out, or that it cannot be written is raised. -/
theorem holds_record {handler : Handler} {entry : LogEntry P} {Q : Unit → σ → Prop} (h : Q () s)
    (hE : E .mistyped) : (record handler entry).Holds s Q E := by
  unfold record
  split
  · refine ⟨?_, fun e he => by contradiction⟩
    rintro ⟨⟩ s' ⟨_, rfl⟩
    exact h
  · cases handler with
    | lenient => exact holds_pure h
    | strict => exact holds_raise hE

theorem holds_own [Supply σ] {v : Value P} {Q : Value P → σ → Prop}
    (h : Q (v.numbered s).1 (v.numbered s).2) : (own v).Holds s Q E := by
  refine ⟨?_, fun e he => by contradiction⟩
  rintro b s' ⟨hb, rfl⟩
  cases hb
  exact h

theorem Holds.mono {Q' : α → σ → Prop} {E' : Error P → Prop} (h : r.Holds s Q E)
    (hQ : ∀ a s', r.Gives s a s' → Q a s' → Q' a s') (hE : ∀ e, E e → E' e) : r.Holds s Q' E' :=
  ⟨fun a s' ha => hQ a s' ha (h.returned a s' ha), fun e he => hE e (h.raised e he)⟩

/-- **What goes on from a return holds**, if it does so from whatever may be returned. -/
theorem Holds.bind {f : α → Run σ P β} (h : r.Holds s Q E)
    (hf : ∀ a s', r.Gives s a s' → Q a s' → (f a).Holds s' R E) : (r >>= f).Holds s R E := by
  match hr : (r.start s).outcome with
  | .ok a =>
    have hgives : r.Gives s a (r.start s).supply := ⟨hr, rfl⟩
    have hfa := hf a _ hgives (h.returned a _ hgives)
    constructor
    · rintro b s' ⟨hb, rfl⟩
      rw [bind_of_ok hr] at hb ⊢
      exact hfa.returned b _ ⟨hb, rfl⟩
    · intro e he
      rw [bind_of_ok hr] at he
      exact hfa.raised e he
  | .error x =>
    constructor
    · rintro b s' ⟨hb, _⟩
      rw [bind_of_error hr] at hb
      contradiction
    · intro e he
      rw [bind_of_error hr] at he
      cases he
      exact h.raised e hr

/-- A run of which nothing is known but that it is that run. -/
theorem holds_self (r : Run σ P α) (s : σ) :
    r.Holds s (fun _ _ => True) fun e => (r.start s).outcome = .error (.raised e) :=
  ⟨fun _ _ _ => trivial, fun _ he => he⟩

end ParserAlgebra.Run
