import ParserAlgebra.Script.Answerable
import ParserAlgebra.Script.Grammar

/-!
# Script — evaluating a script step by step

A step evaluates its expression and, if that returns, binds the name it gives.  Whatever happens,
the next step goes on in the session that is left.  An answer is what a step returned, or how it
ended, with what it logged.

Notes can be added to a report long after it was returned, so a whole script answers with its last
session beside its answers: the notes on any report in them are read there.
-/

namespace ParserAlgebra

open Scripted

variable {P : Type} [Primitive P]

/-- **An operation applied to values**, of which there have to be as many as it takes. -/
def Operation.apply (op : Operation P) (args : List (Value P)) : Scripted P (Value P) :=
  if op.takes.admits args.length then
    match op with
    | .data op => ofExcept (op.apply args)
    | .cursor op => op.apply args
    | .grammar op => op.apply args
    | .primitive f => return .ofAction (.primitive f)
  else raise .mistyped

mutual

/-- **The value of an expression.** -/
def Expression.eval : Expression P → Scripted P (Value P)
  | .literal v => keep v
  | .name x => do
    match (← get).lookup x with
    | some v => return v
    | none => raise (.unbound x)
  | .apply op args => do keep (← op.apply (← evalAll args))

/-- The values of expressions, from left to right. -/
def evalAll : List (Expression P) → Scripted P (List (Value P))
  | [] => return []
  | e :: es => do
    let v ← e.eval
    return v :: (← evalAll es)

end

/-- How a step ended, and what it logged. -/
structure Answer (P : Type) where
  outcome : Except (Halt (Error P)) (Value P)
  log : List (LogEntry P)

/-- What a step answers with: the value of its expression, if an answer can show it. -/
def Step.value (step : Step P) : Scripted P (Value P) := do
  let v ← step.body.eval
  if v.isAnswerable then return v else raise .mistyped

/-- One step in a session. -/
def Step.run (step : Step P) (s : Session P) : Answer P × Session P :=
  match (step.value.run { s with log := [] }).run with
  | (.ok v, t) =>
    let bound := match step.bound with
      | some x => t.bind x v
      | none => t
    (⟨.ok v, t.log⟩, bound)
  | (.error halt, t) => (⟨.error halt, t.log⟩, t)

/-- Steps one after the other. -/
def runSteps : List (Step P) → Session P → List (Answer P) × Session P
  | [], s => ([], s)
  | step :: steps, s =>
    let (answer, t) := step.run s
    let (answers, last) := runSteps steps t
    (answer :: answers, last)

/-- **A whole script**, from an empty session. -/
def runScript (steps : List (Step P)) : List (Answer P) × Session P := runSteps steps .initial

/-- A script has one answer for each step. -/
theorem length_runSteps (steps : List (Step P)) (s : Session P) :
    (runSteps steps s).1.length = steps.length := by
  induction steps generalizing s with
  | nil => rfl
  | cons step steps ih => simp [runSteps, ih]

end ParserAlgebra
