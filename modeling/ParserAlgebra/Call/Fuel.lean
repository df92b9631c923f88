import ParserAlgebra.Call.Congruence

/-!
# Call/Fuel — more fuel keeps a finished run

Fuel only decides how far a run gets, never where it goes: if a call returns or raises with some
fuel, it does the same, entry for entry, with more (`call_of_le`).  So two finished runs of one call
are equal (`call_unique`), and one may speak of what a call *comes to* without saying how much fuel
it took (`ComesTo`).

The order behind this is `Run.Below`: a run is below another if, whatever supply both start with, it
ends the same or does not finish.  Composition is monotone for it (`Below.bind`), and so it is a
congruence (`below`): everything a call is made of is monotone.
-/

namespace ParserAlgebra

variable {σ P α β : Type}

/-! ## Unfinished runs are below all others -/

/-- The run returned or raised. -/
def Ending.Finished (e : Ending σ P α) : Prop := e.outcome ≠ .error .exhausted

namespace Run

/-- **Wherever the first run finishes, the second ends the same.** -/
def Below (r t : Run σ P α) : Prop := ∀ s, (r.start s).Finished → t.start s = r.start s

theorem not_finished_exhaust (s : σ) : ¬((exhaust : Run σ P α).start s).Finished := fun h => h rfl

theorem Below.refl (r : Run σ P α) : r.Below r := fun _ _ => rfl

theorem Below.trans {r t u : Run σ P α} (h : r.Below t) (k : t.Below u) : r.Below u := by
  intro s hr
  have ht : t.start s = r.start s := h s hr
  exact (k s (ht ▸ hr)).trans ht

theorem exhaust_below (t : Run σ P α) : (exhaust : Run σ P α).Below t :=
  fun s h => absurd h (not_finished_exhaust s)

/-- What finishes has a first part that finishes. -/
theorem finished_of_bind {r : Run σ P α} {f : α → Run σ P β} {s : σ}
    (h : ((r >>= f).start s).Finished) : (r.start s).Finished := by
  intro hr
  rw [bind_of_error hr] at h
  exact h rfl

/-- **Composition is monotone** in both of its parts. -/
theorem Below.bind {r t : Run σ P α} {f g : α → Run σ P β} (h : r.Below t)
    (hf : ∀ a, (f a).Below (g a)) : (r >>= f).Below (t >>= g) := by
  intro s hfin
  have ht : t.start s = r.start s := h s (finished_of_bind hfin)
  cases hr : (r.start s).outcome with
  | error e => rw [bind_of_error hr, bind_of_error (ht ▸ hr), ht]
  | ok a =>
    have hfa : ((f a).start (r.start s).supply).Finished := by
      rw [bind_of_ok hr] at hfin
      exact hfin
    rw [bind_of_ok hr, bind_of_ok (ht ▸ hr), ht, hf a _ hfa]

end Run

open Run

/-- One way of making calls finishes no call that the other does not finish alike. -/
def Invoke.Below (i j : Invoke σ P) : Prop := ∀ f args, (i f args).Below (j f args)

/-- More rounds keep what fewer rounds finished. -/
theorem Body.runMany_below {i j : Invoke σ P} (h : Invoke.Below i j) {k l : Nat} (hkl : k ≤ l)
    (p : Parser P) (c : Value P) :
    (runMany (fun p c => i (.parser p) [c]) p k c).Below
      (runMany (fun p c => j (.parser p) [c]) p l c) := by
  induction k generalizing l c with
  | zero => exact exhaust_below _
  | succ k ih =>
    obtain ⟨l, rfl⟩ : ∃ m, l = m + 1 := ⟨l - 1, by omega⟩
    unfold runMany
    refine (h (.parser p) [c]).bind fun r => (Below.refl _).bind fun m => ?_
    cases m with
    | none => exact Below.refl _
    | some vd => exact (ih (by omega) vd.2).bind fun _ => Below.refl _

/-! ## Everything a call is made of is monotone -/

variable [Supply σ]

/-- Being below is a congruence. -/
def below : Congruence σ σ P where
  Rel r t := r.Below t
  returning _ := Below.refl _
  raise _ := Below.refl _
  exhaust := Below.refl _
  own _ := Below.refl _
  bind := Below.bind

theorem Body.apply_below {i j : Invoke σ P} (h : Invoke.Below i j) {k l : Nat} (hkl : k ≤ l)
    (body : Body P) (c : Value P) : (body.apply i k c).Below (body.apply j l c) :=
  Congruence.body (C := below) h (fun p c => runMany_below h hkl p c) body c

theorem Parser.apply_below {i j : Invoke σ P} (h : Invoke.Below i j) {k l : Nat}
    (hkl : k ≤ l) (ctx : Context P) (p : Parser P) (c : Value P) :
    (p.apply i k ctx c).Below (p.apply j l ctx c) := by
  have body := Body.apply_below h hkl p.body c
  unfold Parser.apply
  split
  · exact (Below.refl _).bind fun _ => body.bind fun _ => Below.refl _
  · exact body

/-! ## What a call comes to -/

variable [Primitive P] (ctx : Context P)

theorem call_succ_below (fuel : Nat) :
    Invoke.Below (call ctx fuel : Invoke σ P) (call ctx (fuel + 1)) := by
  induction fuel with
  | zero => exact fun f args => exhaust_below _
  | succ fuel ih =>
    intro f args
    cases f with
    | parser p =>
      match args with
      | [c] => exact (Parser.apply_below ih (Nat.le_succ fuel) ctx p c).bind fun _ => Below.refl _
      | [] => exact Below.refl _
      | _ :: _ :: _ => exact Below.refl _
    | mapper m => exact (Congruence.mapper (C := below) ih m args).bind fun _ => Below.refl _
    | action a => exact (Congruence.action (C := below) ih rfl a args).bind fun _ => Below.refl _

/-- **More fuel keeps a finished call.** -/
theorem call_of_le {m n : Nat} (h : m ≤ n) :
    Invoke.Below (call ctx m : Invoke σ P) (call ctx n) := by
  induction h with
  | refl => exact fun f args => Below.refl _
  | step _ ih => exact fun f args => (ih f args).trans (call_succ_below ctx _ f args)

/-- A call comes to an ending if, with enough fuel, it finishes that way. -/
def ComesTo (f : Callable P) (args : List (Value P)) (s : σ) (e : Ending σ P (Value P)) : Prop :=
  e.Finished ∧ ∃ fuel, (call ctx fuel f args).start s = e

/-- **A call comes to one ending only**, whatever the fuel. -/
theorem call_unique {f : Callable P} {args : List (Value P)} {s : σ}
    {e e' : Ending σ P (Value P)} (he : ComesTo ctx f args s e) (he' : ComesTo ctx f args s e') :
    e = e' := by
  obtain ⟨he, m, rfl⟩ := he
  obtain ⟨he', n, rfl⟩ := he'
  rcases Nat.le_total m n with h | h
  · exact (call_of_le ctx h f args s he).symm
  · exact call_of_le ctx h f args s he'

end ParserAlgebra
