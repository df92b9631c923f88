import ParserAlgebra.Call

/-!
# Script/Session — what one step of a script leaves to the next

Names, the debug switch, the notes on reports, and how many objects there are so far.  A step that
fails still leaves its traces: what it logged, switched or noted before it failed stays.

Every value a session holds is numbered (`keep`), so that a name stands for one object however often
it is read.
-/

namespace ParserAlgebra

/-- **What a script has done so far.** -/
structure Session (P : Type) where
  bindings : List (String × Value P)
  /-- What the debug switch was set to: the log is on if it is true. -/
  debug : Value P
  /-- What was noted on reports after they were made, oldest first. -/
  notes : List (Identity × String)
  /-- The number of the next object. -/
  fresh : Nat
  /-- What the current step has logged. -/
  log : List (LogEntry P)

namespace Session

variable {P : Type}

def initial : Session P := ⟨[], .bool false, [], Identity.firstFresh, []⟩

/-- What a name is bound to. -/
def lookup (s : Session P) (x : String) : Option (Value P) :=
  (s.bindings.find? fun b => b.1 == x).map (·.2)

/-- The session with a name bound, in front of what it was bound to before. -/
def bind (s : Session P) (x : String) (v : Value P) : Session P :=
  { s with bindings := (x, v) :: s.bindings }

/-- What a run sees of the session.  A script is told of an entry that cannot be written. -/
def context (s : Session P) : Context P :=
  { rules := s.lookup, debug := s.debug.isTruthy, handler := .strict }

/-- All notes on a report: where it stopped, and what was noted later. -/
def notesOn (s : Session P) (r : Report (Value P)) (identity : Identity) : List String :=
  r.firstNote :: (s.notes.filter fun n => sameIdentity n.1 identity).map (·.2)

/-- The latest binding of a name is the one that counts. -/
@[simp] theorem lookup_bind (s : Session P) (x : String) (v : Value P) :
    (s.bind x v).lookup x = some v := by simp [lookup, bind]

/-- Binding one name leaves the others as they were. -/
theorem lookup_bind_of_ne (s : Session P) {x y : String} (v : Value P) (h : x ≠ y) :
    (s.bind x v).lookup y = s.lookup y := by simp [lookup, bind, h]

end Session

/-- **A computation within a session.**  An error ends it and keeps the session. -/
abbrev Scripted (P : Type) := ExceptT (Halt (Error P)) (StateM (Session P))

namespace Scripted

variable {P : Type} {α : Type}

def raise (e : Error P) : Scripted P α := throw (.raised e)

def ofExcept : Except (Error P) α → Scripted P α
  | .ok a => return a
  | .error e => raise e

/-- A run as part of the session: it starts with the session's numbers, what it logged is logged,
and it ends as it ended. -/
def perform (r : Run Nat P α) : Scripted P α := do
  let s ← get
  let e := r.start s.fresh
  set { s with log := s.log ++ e.log, fresh := e.supply }
  match e.outcome with
  | .ok a => return a
  | .error halt => throw halt

/-- A value as the session keeps it: every new object in it is numbered. -/
def keep (v : Value P) : Scripted P (Value P) := perform (Run.own v)

end Scripted

end ParserAlgebra
