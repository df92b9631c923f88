import ParserAlgebra.Proofs.Ends

/-!
# Proofs/Calls — which calls are made, and in which order

    r ends with a                     given how calls are made
    r ends with a, having made cs     given the same, and that each call is recorded

What an action does is put together from calls, and what these return decides which come next.  How
it ends does not tell which calls it took.  So each call is recorded when it is made, in place of
the supply, which hands out no numbers here.  Recording changes nothing else (`Makes.ends`).

Only the calls that an action makes itself are recorded, and none that are made within these.
-/

namespace ParserAlgebra

variable {P α β : Type}

/-- **A call**: what is called, and with which arguments. -/
abbrev Call (P : Type) := Callable P × List (Value P)

/-- The calls that were made, oldest first. -/
structure CallRecord (P : Type) where
  calls : List (Call P)

instance : Supply (CallRecord P) := ⟨fun s => (none, s)⟩

instance : Supply.Silent (CallRecord P) := ⟨fun _ => rfl⟩

/-- **Calls that are recorded**, whether they return or not. -/
def Invoke.recorded (invoke : Invoke Unit P) : Invoke (CallRecord P) P := fun f args =>
  ⟨fun s => ⟨(invoke f args).log, (invoke f args).outcome, ⟨s.calls ++ [(f, args)]⟩⟩⟩

/-- **From some fuel on, the run ends with `a`**, and these are the calls it makes. -/
def Makes (r : Nat → Run (CallRecord P) P α) (calls : List (Call P)) (a : Except (Error P) α) :
    Prop :=
  ∃ m, ∀ n ≥ m, ∀ s, ((r n).start s).outcome = a.mapError .raised ∧
    ((r n).start s).supply.calls = s.calls ++ calls

/-! ## Composing -/

/-- What returns at once makes no calls. -/
theorem makes_pure (x : α) : Makes (fun _ => (pure x : Run (CallRecord P) P α)) [] (.ok x) :=
  ⟨0, fun _ _ s => ⟨rfl, (List.append_nil s.calls).symm⟩⟩

section

variable {r : Nat → Run (CallRecord P) P α} {f : Nat → α → Run (CallRecord P) P β}
  {calls more : List (Call P)}

/-- **What goes on from a return** makes its calls behind those of the first run. -/
theorem Makes.bind {x : α} {a : Except (Error P) β} (h : Makes r calls (.ok x))
    (hf : Makes (fun n => f n x) more a) : Makes (fun n => r n >>= f n) (calls ++ more) a := by
  obtain ⟨m, hm⟩ := h
  obtain ⟨k, hk⟩ := hf
  refine ⟨max m k, fun n hn s => ?_⟩
  obtain ⟨ended, made⟩ := hm n (by omega) s
  obtain ⟨ended', made'⟩ := hk n (by omega) ((r n).start s).supply
  rw [Run.bind_of_ok ended]
  exact ⟨ended', by rw [made', made, List.append_assoc]⟩

/-- **Behind an error no further calls are made.** -/
theorem Makes.bind_error {e : Error P} (h : Makes r calls (.error e))
    (f : Nat → α → Run (CallRecord P) P β) : Makes (fun n => r n >>= f n) calls (.error e) := by
  obtain ⟨m, hm⟩ := h
  refine ⟨m, fun n hn s => ?_⟩
  obtain ⟨ended, made⟩ := hm n hn s
  rw [Run.bind_of_error ended]
  exact ⟨rfl, made⟩

end

/-! ## Recording changes nothing -/

/-- Ending as a run does that keeps no record. -/
def unrecorded : Congruence (CallRecord P) Unit P where
  Rel r t := ∀ s, (r.start s).outcome = t.outcome
  returning _ _ := rfl
  raise _ _ := rfl
  exhaust _ := rfl
  own v s := by rw [Run.own_silent, Run.own_unit]; rfl
  bind {_ _ _ t _ _} h hf s := by
    match ht : t.outcome with
    | .ok a =>
      rw [Run.bind_of_ok ((h s).trans ht), Run.outcome_bind_of_ok ht]
      exact hf a _
    | .error e => rw [Run.bind_of_error ((h s).trans ht), Run.outcome_bind_of_error ht]

variable [Primitive P] {rules : String → Option (Value P)}

/-- A call that answers is a single call. -/
theorem makes_call {f : Callable P} {args : List (Value P)} {a : Except (Error P) (Value P)}
    (h : Returns rules f args a) :
    Makes (fun n => Invoke.recorded (call (quiet rules) n) f args) [(f, args)] a := by
  obtain ⟨m, hm⟩ := h.outcome
  exact ⟨m, fun n hn s => ⟨hm n hn, rfl⟩⟩

section

variable (rules)

/-- **An action whose calls are recorded.** -/
def Action.recorded (f : Action P) (args : List (Value P)) (n : Nat) :
    Run (CallRecord P) P (Value P) :=
  f.apply (Invoke.recorded (call (quiet rules) n)) (quiet rules) args

end

/-- **An action ends as it does when its calls are recorded.** -/
theorem Makes.ends {f : Action P} {args : List (Value P)} {calls : List (Call P)}
    {a : Except (Error P) (Value P)} (h : Makes (f.recorded rules args) calls a) :
    Ends (fun n => call (quiet rules) n (.action f) args) a := by
  obtain ⟨m, hm⟩ := h
  refine (alike_action f args a).2 ⟨m, fun n hn => ?_⟩
  have same : unrecorded.Calls (Invoke.recorded (call (quiet rules) n)) (call (quiet rules) n) :=
    fun _ _ _ => rfl
  rw [← Congruence.action same rfl f args ⟨[]⟩]
  exact (hm n hn ⟨[]⟩).1

end ParserAlgebra
