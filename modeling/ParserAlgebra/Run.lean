import ParserAlgebra.Error
import ParserAlgebra.Log
import ParserAlgebra.Value.Numbering

/-!
# Run — a computation that logs, makes objects, and may end early

A run is given a supply of numbers for the objects it makes.  It writes log entries and ends in one
of three ways: it returns, an error is raised, or the fuel it was given is used up.  The last is
neither a result nor an error of the grammar, so it has a constructor of its own, and nothing in the
library turns it into either.

Entries are kept whatever the end is: what was written before an error stays written, and a number
that was handed out stays handed out.

## With and without numbers

What may be held twice has to be numbered first (`own`), and everything a call returns is.  A run on
the silent supply numbers nothing; it is then no more than a log and an outcome, which are read off
it directly (`Run.log`, `Run.outcome`), and `own` does nothing (`own_unit`).
-/

namespace ParserAlgebra

/-- Why a run returned nothing. -/
inductive Halt (ε : Type) where
  | raised (e : ε)
  | exhausted

/-- **How a run ended**: the entries it wrote, oldest first, what it returned or why it returned
nothing, and what it left of the supply. -/
@[ext] structure Ending (σ P α : Type) where
  log : List (LogEntry P)
  outcome : Except (Halt (Error P)) α
  supply : σ

/-- **A run**: how it ends, by the supply it starts with. -/
@[ext] structure Run (σ P α : Type) where
  start : σ → Ending σ P α

namespace Run

variable {σ P α β : Type}

/-- Returns at once. -/
def returning (a : α) : Run σ P α := ⟨fun s => ⟨[], .ok a, s⟩⟩

/-- Ends with an error. -/
def raise (e : Error P) : Run σ P α := ⟨fun s => ⟨[], .error (.raised e), s⟩⟩

/-- Ends for want of fuel. -/
def exhaust : Run σ P α := ⟨fun s => ⟨[], .error .exhausted, s⟩⟩

/-- Writes one entry. -/
def write (entry : LogEntry P) : Run σ P Unit := ⟨fun s => ⟨[entry], .ok (), s⟩⟩

/-- Hands an entry to the handler of the log. -/
def record (handler : Handler) (entry : LogEntry P) : Run σ P Unit :=
  if entry.isWritable then write entry
  else match handler with
    | .lenient => returning ()
    | .strict => raise .mistyped

/-- A computation that writes nothing and makes no objects. -/
def ofExcept : Except (Error P) α → Run σ P α
  | .ok a => returning a
  | .error e => raise e

/-- **Takes hold of a value**: every new object in it is numbered. -/
def own [Supply σ] (v : Value P) : Run σ P (Value P) :=
  ⟨fun s => ⟨[], .ok (v.numbered s).1, (v.numbered s).2⟩⟩

/-- Takes hold of some values. -/
def ownAll [Supply σ] (vs : List (Value P)) : Run σ P (List (Value P)) :=
  ⟨fun s => ⟨[], .ok (Value.numberedAll vs s).1, (Value.numberedAll vs s).2⟩⟩

/-- One run after another: the second starts from what the first returned, if it did. -/
def andThen (r : Run σ P α) (f : α → Run σ P β) : Run σ P β :=
  ⟨fun s =>
    let e := r.start s
    match e.outcome with
    | .ok a =>
      let e' := (f a).start e.supply
      ⟨e.log ++ e'.log, e'.outcome, e'.supply⟩
    | .error h => ⟨e.log, .error h, e.supply⟩⟩

instance : Monad (Run σ P) where
  pure := returning
  bind := andThen

/-! ## The laws of composition -/

@[simp] theorem start_pure (a : α) (s : σ) :
    (pure a : Run σ P α).start s = ⟨[], .ok a, s⟩ := rfl

theorem pure_bind (a : α) (f : α → Run σ P β) : (pure a >>= f : Run σ P β) = f a := rfl

@[simp] theorem raise_bind (e : Error P) (f : α → Run σ P β) : (raise e >>= f) = raise e := rfl

@[simp] theorem exhaust_bind (f : α → Run σ P β) :
    ((exhaust : Run σ P α) >>= f) = exhaust := rfl

/-- A run that returned goes on with what it returned, keeping its entries in front. -/
theorem bind_of_ok {r : Run σ P α} {s : σ} {a : α} (h : (r.start s).outcome = .ok a)
    (f : α → Run σ P β) :
    (r >>= f).start s =
      ⟨(r.start s).log ++ ((f a).start (r.start s).supply).log,
        ((f a).start (r.start s).supply).outcome, ((f a).start (r.start s).supply).supply⟩ := by
  simp [bind, andThen, h]

/-- A run that halted is not continued. -/
theorem bind_of_error {r : Run σ P α} {s : σ} {h : Halt (Error P)}
    (hr : (r.start s).outcome = .error h) (f : α → Run σ P β) :
    (r >>= f).start s = ⟨(r.start s).log, .error h, (r.start s).supply⟩ := by
  simp [bind, andThen, hr]

/-- Composition is associative: the entries of three runs in a row are the same lists appended. -/
theorem andThen_assoc {γ : Type} (r : Run σ P α) (f : α → Run σ P β) (g : β → Run σ P γ) :
    (r.andThen f).andThen g = r.andThen fun a => (f a).andThen g := by
  apply Run.ext
  funext s
  simp only [andThen]
  cases (r.start s).outcome with
  | error h => rfl
  | ok a => cases hf : ((f a).start (r.start s).supply).outcome <;> simp [hf]

/-- Returning what was returned changes nothing. -/
theorem andThen_returning (r : Run σ P α) : r.andThen returning = r := by
  apply Run.ext
  funext s
  apply Ending.ext <;> cases h : (r.start s).outcome <;> simp [andThen, returning, h]

instance : LawfulMonad (Run σ P) :=
  LawfulMonad.mk' _ andThen_returning (fun _ _ => rfl) andThen_assoc

/-! ## Runs that number nothing -/

/-- What a run without numbers wrote. -/
def log (r : Run Unit P α) : List (LogEntry P) := (r.start ()).log

/-- How a run without numbers ended. -/
def outcome (r : Run Unit P α) : Except (Halt (Error P)) α := (r.start ()).outcome

@[simp] theorem outcome_pure (a : α) : (pure a : Run Unit P α).outcome = .ok a := rfl
@[simp] theorem log_pure (a : α) : (pure a : Run Unit P α).log = [] := rfl

@[simp] theorem outcome_raise (e : Error P) :
    (raise e : Run Unit P α).outcome = .error (.raised e) := rfl

@[simp] theorem outcome_exhaust : (exhaust : Run Unit P α).outcome = .error .exhausted := rfl

@[simp] theorem outcome_ofExcept (r : Except (Error P) α) :
    (ofExcept r : Run Unit P α).outcome = r.mapError .raised := by
  cases r <;> rfl

theorem outcome_bind_of_ok {r : Run Unit P α} {a : α} (h : r.outcome = .ok a)
    (f : α → Run Unit P β) : (r >>= f).outcome = (f a).outcome := by
  rw [outcome, bind_of_ok h]
  rfl

theorem outcome_bind_of_error {r : Run Unit P α} {e : Halt (Error P)} (h : r.outcome = .error e)
    (f : α → Run Unit P β) : (r >>= f).outcome = .error e := by
  rw [outcome, bind_of_error h]

/-- What returned has a first part that returned. -/
theorem exists_outcome_of_bind {r : Run Unit P α} {f : α → Run Unit P β} {b : β}
    (h : (r >>= f).outcome = .ok b) : ∃ a, r.outcome = .ok a ∧ (f a).outcome = .ok b := by
  match hr : r.outcome with
  | .ok a =>
    rw [outcome_bind_of_ok hr] at h
    exact ⟨a, rfl, h⟩
  | .error e =>
    rw [outcome_bind_of_error hr] at h
    contradiction

/-- Without numbers to hand out, a value is taken hold of as it is. -/
theorem own_silent [Supply σ] [Supply.Silent σ] (v : Value P) :
    (own v : Run σ P (Value P)) = pure v := by
  apply Run.ext
  funext s
  simp [own, Value.numbered_numberedAll_silent.1]

theorem ownAll_silent [Supply σ] [Supply.Silent σ] (vs : List (Value P)) :
    (ownAll vs : Run σ P (List (Value P))) = pure vs := by
  apply Run.ext
  funext s
  simp [ownAll, Value.numbered_numberedAll_silent.2]

@[simp] theorem own_unit (v : Value P) : (own v : Run Unit P (Value P)) = pure v := own_silent v

@[simp] theorem ownAll_unit (vs : List (Value P)) :
    (ownAll vs : Run Unit P (List (Value P))) = pure vs := ownAll_silent vs

end Run

end ParserAlgebra
