import ParserAlgebra.Catalogue.Functions

/-!
# Catalogue/Readers — a stock of functions from a cursor to a result

What a parser is made of when it is made by hand.  Some keep to the rules of parsers, some break
them on purpose: they look at the position, answer with something that is no result, or go on in a
stream that is not the one they were given.
-/

namespace ParserAlgebra

/-- **A function from a cursor to a result.** -/
inductive CursorFunction where
  /-- Its own position, nothing consumed. -/
  | pos
  /-- The next token, nothing consumed. -/
  | peek
  /-- All that is left. -/
  | rest
  /-- The next two tokens, as two components. -/
  | two
  /-- One component, itself a composite of two. -/
  | nested
  /-- A composite of one. -/
  | single
  | newFailure
  | null
  /-- Goes on at the start of another stream. -/
  | foreign
  /-- Goes on in another stream that has no tokens. -/
  | foreignEnd
  /-- Goes back to the start of the stream. -/
  | rewind
  | raise

namespace CursorFunction

def all : List CursorFunction :=
  [.pos, .peek, .rest, .two, .nested, .single, .newFailure, .null, .foreign, .foreignEnd, .rewind,
   .raise]

def label : CursorFunction → String
  | .pos => "pos"
  | .peek => "peek"
  | .rest => "rest"
  | .two => "two"
  | .nested => "nested"
  | .single => "single"
  | .newFailure => "new_failure"
  | .null => "null"
  | .foreign => "foreign"
  | .foreignEnd => "foreign_end"
  | .rewind => "rewind"
  | .raise => "raise"

def ofLabel? (text : String) : Option CursorFunction := all.find? fun f => f.label == text

variable {P : Type}

/-- The stream that `foreign` goes on in. -/
def foreignCursor : Value P :=
  .cursor (.linked ⟨.ofForeignText, true⟩ (Value.characters "zz") 0) none

/-- The stream that `foreignEnd` goes on in. -/
def foreignEndCursor : Value P := .cursor (.linked ⟨.ofEmptyText, true⟩ [] 0) none

/-- All tokens that are left, and the cursor behind them.  It is the same cursor if there was
nothing to read. -/
def readRest (c : Value P) : Except (Error P) (Value P) := do
  let d ← c.asCursor
  let (xs, e) ← Error.ofCursor (d.readUpTo d.stepsLeft)
  return .success (.list xs none) (if xs.isEmpty then c else .cursor e none) none

/-- The next two tokens.  Whether there are two is settled before either is read, so a single token
that cannot be read is a failure and not an error. -/
def readTwo (c : Value P) : Except (Error P) (Value P) := do
  let d ← c.asCursor
  if d.atEnd then return .failure
  let e ← Error.ofCursor d.advance
  if e.atEnd then return .failure
  let x ← Error.ofCursor d.current
  let y ← Error.ofCursor e.current
  return .success (.composite [x, y] none) (.cursor (← Error.ofCursor e.advance) none) none

/-- **What a function makes of a cursor.** -/
def read (f : CursorFunction) (c : Value P) : Except (Error P) (Value P) :=
  match f with
  | .pos => do return .success (.ofNumber (← c.positionField)) c none
  | .peek => do
    let d ← c.asCursor
    if d.atEnd then return .failure else return .success (← Error.ofCursor d.current) c none
  | .rest => readRest c
  | .two => readTwo c
  | .nested =>
    return .success (.composite [.composite [.ofText "x", .ofText "y"] none] none) c none
  | .single => return .success (.composite [.ofText "x"] none) c none
  | .newFailure => return .anotherFailure none
  | .null => return .null
  | .foreign => return .success (.ofText "x") foreignCursor none
  | .foreignEnd => return .success (.ofText "x") foreignEndCursor none
  | .rewind => do return .success (.ofText "r") (.cursor (← c.startOfStream) none) none
  | .raise => throw (.primitive "raised")

/-- **A function called with arguments**, of which there has to be one. -/
def call (f : CursorFunction) : List (Value P) → Except (Error P) (Value P)
  | [c] => f.read c
  | args => .error (wrongCount f.label args.length)

end CursorFunction

/-- **The primitives that come along**: functions on values, and functions from cursors. -/
inductive Catalogue where
  | onValues (f : ValueFunction)
  | onCursor (f : CursorFunction)

namespace Catalogue

def label : Catalogue → String
  | .onValues f => f.label
  | .onCursor f => f.label

instance : Primitive Catalogue where
  label := label
  call
    | .onValues f, args => .ofExcept (f.call args)
    | .onCursor f, args => .ofExcept (f.call args)

end Catalogue

end ParserAlgebra
