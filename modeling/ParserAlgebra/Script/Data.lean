import ParserAlgebra.Script.Expression
import ParserAlgebra.Script.Session

/-!
# Script/Data — operations on values, cursors and reports

Each operation hands its arguments to the library and answers with what comes back.  An operation
with arguments it has no use for is mistyped.
-/

namespace ParserAlgebra

namespace Scripted

variable {P : Type}

/-- A number of any kind. -/
def asNumber (x : Value P) : Scripted P Number :=
  match x.number? with
  | some n => return n
  | none => raise .mistyped

/-- A message, which may be missing. -/
def asMessage : List (Value P) → Option (Value P)
  | [] | .null :: _ => none
  | message :: _ => some message

/-- What a note says in front of a position: nothing, or a text. -/
def asRemark (x : Option (Value P)) : Scripted P (Option String) :=
  match x with
  | none => return none
  | some (.text s _) => return some s
  | some _ => raise .mistyped

/-- A cursor with a position on a stream.  A negative position is outside of whatever it is. -/
def startAt (stream : Value P) (position : Number) : Scripted P (Value P) := do
  if !(Number.int 0).atMost position then raise (.cursor (.outside position))
  let (origin, tokens) ← ofExcept stream.asStream
  let c ← ofExcept (Error.ofCursor (Cursor.at? origin tokens position))
  return .cursor c none

/-- A linked cursor, on anything and at any place. -/
def linkedAt (stream place : Value P) : Value P :=
  match stream.asStream, place.number? with
  | .ok (origin, tokens), some n => .cursor (.linkedAt origin tokens n) none
  | _, _ => .stray stream place none

/-- Values are counted as members of a set, so all have to be hashable. -/
def countMembers (xs : List (Value P)) : Except (Error P) (Value P) :=
  if Value.allHashable xs then .ok (.ofInt (Value.countDistinct xs)) else .error .mistyped

/-- The same function without its name.  Only a function that carries a label has a name to lose. -/
def withoutName : Value P → Except (Error P) (Value P)
  | .callable (.action .gather) _ => .error .missing
  | .callable (.action .wrap) _ => .error .missing
  | .callable (.action a) _ => .ok (.ofAction (.unnamed a))
  | _ => .error .missing

end Scripted

open Scripted

variable {P : Type} [Labelled P]

/-- **An operation on values.** -/
def DataOperation.apply (op : DataOperation) (args : List (Value P)) :
    Except (Error P) (Value P) :=
  match op, args with
  | .list, xs => .ok (.list xs none)
  | .tuple, xs => .ok (.ofTuple xs)
  | .composite, xs => .ok (.composite xs none)
  | .iterable, xs => .ok (.iterable xs none)
  | .present, [x] => .ok (.present x none)
  | .absent, [] => .ok .absent
  | .newAbsent, [] => .ok (.anotherAbsent none)
  | .success, [v, n] => .ok (.success v n none)
  | .failure, [] => .ok .failure
  | .newFailure, [] => .ok (.anotherFailure none)
  | .known c, [] => .ok c.value
  | .render, [x] => x.shown.map Value.form
  | .truth, [x] => .ok (.bool x.isTruthy)
  | .size, [x] => x.size.map fun n => .ofInt n
  | .equal, [x, y] => .ok (.bool (x.equals y))
  | .different, [x, y] => .ok (.bool (!x.equals y))
  | .within, [x, y] => (x.contains y).map .bool
  | .identical, [x, y] => .ok (.bool (sameIdentity x.identity y.identity))
  | .countDistinct, xs => countMembers xs
  | .tupleOf, xs => .ok (Value.tupleOf xs)
  | .asComposite, [x] => .ok x.asComposite
  | .unwrap, [x] => .ok x.unwrap
  | .concat, xs => .ok (Value.concat xs)
  | .always, [x] => .ok (.ofAction (.constant x))
  | .unnamed, [f] => withoutName f
  | _, _ => .error .mistyped

/-- **An operation on cursors, results and reports.** -/
def CursorOperation.apply (op : CursorOperation) (args : List (Value P)) : Scripted P (Value P) :=
  match op, args with
  | .start, [stream] => startAt stream (.int 0)
  | .start, [stream, place] => do startAt stream (← asNumber place)
  | .linked, [stream] => return linkedAt stream (.ofInt 0)
  | .linked, [stream, place] => return linkedAt stream place
  | .atEnd, [c] => do return .bool (← ofExcept c.asCursor).atEnd
  | .current, [c] => ofExcept c.currentToken
  | .advance, [c] => ofExcept c.advanced
  | .position, [x] => do return .ofNumber (← ofExcept x.positionField)
  | .value, [r] => ofExcept r.valueField
  | .next, [r] => ofExcept r.nextField
  | .report, stream :: place :: text => do
    let (origin, tokens) ← ofExcept stream.asStream
    return .report ⟨asMessage text, ← asNumber place, origin, tokens⟩ none
  | .appendNote, .report r identity :: place :: text => do
    let note := r.note (← asNumber place) (← asRemark (asMessage text))
    modify fun s => { s with notes := s.notes ++ [(identity, note)] }
    return .report r identity
  | .appendNote, _ => raise .missing
  | .throwReport, [.report r identity] => raise (.parse r identity)
  | .setDebug, [] => do
    modify fun s => { s with debug := .bool true }
    return .null
  | .setDebug, [x] => do
    modify fun s => { s with debug := x }
    return .null
  | .isDebug, [] => return (← get).debug
  | _, _ => raise .mistyped

end ParserAlgebra
