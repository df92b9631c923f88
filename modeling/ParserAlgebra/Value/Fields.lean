import ParserAlgebra.Parser.Combinators
import ParserAlgebra.Value.Elements

/-!
# Value/Fields — what a value can be asked for

A result has a value and a cursor to go on from, an optional value that is there has a value, and
both cursors and reports have a position in a stream they can name.  Any value may turn up where one
of these is asked for, so each question has the answer that the value lacks it.

A stray cursor is a cursor, and can be asked for its token and for the cursor after it.  It fails
because something of the wrong type would have to be indexed, compared or counted up.
-/

namespace ParserAlgebra.Value

variable {P : Type}

/-- The value of a match.  An optional value that is there has one too. -/
def valueField : Value P → Except (Error P) (Value P)
  | success v _ _ => .ok v
  | present v _ => .ok v
  | _ => .error .missing

/-- The cursor after a match. -/
def nextField : Value P → Except (Error P) (Value P)
  | success _ n _ => .ok n
  | _ => .error .missing

/-- Reads a value as a cursor, to see first of all whether it is at the end.  A stray cursor cannot
tell: the place or the length is missing. -/
def asCursor : Value P → Except (Error P) (Cursor (Value P))
  | cursor c _ => .ok c
  | stray _ _ _ => .error .mistyped
  | _ => .error .missing

/-- The value itself, which has to have a written form. -/
def shown (x : Value P) : Except (Error P) (Value P) :=
  if x.isWritable then .ok x else .error .mistyped

/-- The token under a cursor.  Reading a stray cursor on a parser writes `parser[place]`, which is a
parser again if the place can be called. -/
def currentToken [Labelled P] : Value P → Except (Error P) (Value P)
  | cursor c _ => Error.ofCursor c.current
  | stray (.callable (.parser p) _) (.callable f _) _ => (p.map (.ofCallable f)).map ofParser
  | stray (.callable (.parser _) _) place _ => place.shown.bind fun place =>
    .error (indexedParser place)
  | stray _ _ _ => .error .mistyped
  | _ => .error .missing

/-- The cursor one token further. -/
def advanced : Value P → Except (Error P) (Value P)
  | cursor c _ => (Error.ofCursor c.advance).map fun d => cursor d none
  | stray stream place _ => match place.number? with
    | some n => .ok (stray stream (ofNumber (n.add (.int 1))) none)
    | none => .error .mistyped
  | _ => .error .missing

/-- The position of a cursor that has one, or of a report. -/
def positionField : Value P → Except (Error P) Number
  | cursor c _ => match c.position? with
    | some position => .ok position
    | none => .error .missing
  | report r _ => .ok r.position
  | _ => .error .missing

/-- The start of the stream that a cursor with a position, or a report, is about. -/
def startOfStream : Value P → Except (Error P) (Cursor (Value P))
  | cursor c _ => if c.isChecked then .ok (.start c.origin c.tokens) else .error .missing
  | report r _ => .ok (.start r.origin r.tokens)
  | _ => .error .missing

@[simp] theorem valueField_success (v n : Value P) (identity : Identity) :
    (success v n identity).valueField = .ok v := rfl
@[simp] theorem nextField_success (v n : Value P) (identity : Identity) :
    (success v n identity).nextField = .ok n := rfl

/-- A value that cannot be asked for lacks it. -/
theorem eq_missing_of_valueField {x : Value P} {e : Error P} (h : x.valueField = .error e) :
    e = .missing := by
  unfold valueField at h
  split at h <;> cases h
  rfl

theorem eq_missing_of_nextField {x : Value P} {e : Error P} (h : x.nextField = .error e) :
    e = .missing := by
  unfold nextField at h
  split at h <;> cases h
  rfl

/-- Only a match has a cursor after it. -/
theorem exists_success_of_nextField {x n : Value P} (h : x.nextField = .ok n) :
    ∃ v k, x = success v n k := by
  cases x with
  | success v m k =>
    cases h
    exact ⟨v, k, rfl⟩
  | _ => contradiction

@[simp] theorem asCursor_cursor (c : Cursor (Value P)) (identity : Identity) :
    (cursor c identity).asCursor = .ok c := rfl

@[simp] theorem currentToken_cursor [Labelled P] (c : Cursor (Value P)) (identity : Identity) :
    (cursor c identity).currentToken = Error.ofCursor c.current := rfl

end ParserAlgebra.Value
