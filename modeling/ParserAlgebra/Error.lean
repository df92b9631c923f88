import ParserAlgebra.Value.Printer

/-!
# Error — what can go wrong, by its cause

A grammar is checked while it is put together; a `GrammarError` says which of its rules was broken,
and by what.  Everything else happens during a run: the cursor or the host refuses, a value lacks
what is asked of it, or the parse as a whole has failed.  Each cause carries what its message shows,
and the wording is in `message` alone.
-/

namespace ParserAlgebra

/-- **What makes a grammar impossible.** -/
inductive GrammarError (P : Type) where
  | notParser (combinator : String) (got : Value P)
  | noParsers
  | notCallable (role : String) (got : Value P)
  | noIndices
  | badIndex (got : Value P)
  /-- Branches of an alternative that are known to produce different numbers of components. -/
  | branchesDiffer (shapes : List (Parser P × Value P))
  /-- A mapper that needs more components than the parser under it is known to produce. -/
  | tooFew (p : Parser P) (arity : Value P) (needed : Nat)

/-- **What ends a run.** -/
inductive Error (P : Type) where
  | grammar (e : GrammarError P)
  /-- The parse failed; `identity` tells which report it is, if it is one that a script holds. -/
  | parse (r : Report (Value P)) (identity : Identity)
  | cursor (fault : CursorFault)
  /-- A fallible mapper answered with something other than an optional value. -/
  | badOutcome (got : Value P)
  /-- A primitive of the host gave up. -/
  | primitive (text : String)
  | unbound (name : String)
  /-- A value of the wrong type was listed, indexed, compared or called. -/
  | mistyped
  /-- A value has no field of the name it was asked for. -/
  | missing
  | outOfRange
  /-- A text has more digits than a number is read from. -/
  | tooManyDigits

/-- A computation that came to a result has one of its first step. -/
theorem exists_ok_of_bind {ε α β : Type} {x : Except ε α} {f : α → Except ε β} {b : β}
    (h : x >>= f = .ok b) : ∃ a, x = .ok a ∧ f a = .ok b := by
  match x, h with
  | .ok a, h => exact ⟨a, rfl, h⟩

variable {P : Type}

/-- What a cursor answers, with its refusal as an error of the run. -/
def Error.ofCursor {α : Type} : Except CursorFault α → Except (Error P) α
  | .ok a => .ok a
  | .error fault => .error (.cursor fault)

theorem Error.eq_ok_of_ofCursor {α : Type} {r : Except CursorFault α} {a : α}
    (h : (ofCursor r : Except (Error P) α) = .ok a) : r = .ok a := by
  match r, h with
  | .ok b, h =>
    cases h
    rfl

variable [Labelled P]

namespace GrammarError

def message : GrammarError P → String
  | .notParser combinator got =>
    "The " ++ combinator ++ " combinator requires parsers as arguments, got " ++ got.render ++ "."
  | .noParsers => "At least one parser required."
  | .notCallable role got => "The " ++ role ++ " must be callable, got " ++ got.render ++ "."
  | .noIndices => "At least one index required."
  | .badIndex got => "Select indices must be non-negative integers, got " ++ got.render ++ "."
  | .branchesDiffer shapes =>
    "The branches of an alternative must produce the same number of components. (" ++
      ", ".intercalate (shapes.map fun s => s.1.title ++ ": " ++ s.2.plain) ++ ")"
  | .tooFew p arity needed =>
    p.title ++ " produces " ++ arity.plain ++ " components, the mapper needs at least " ++
      toString needed ++ "."

end GrammarError

namespace Error

/-- The text of an error, for the causes that have one. -/
def message? : Error P → Option String
  | .grammar e => some e.message
  | .parse r _ => some ((r.message.map Value.plain).getD "")
  | .cursor fault => fault.message?
  | .badOutcome got =>
    some ("A partial mapper must return \x60Some(...)\x60 or \x60NOTHING\x60, got " ++
      got.render ++ ".")
  | .primitive text => some text
  | .unbound name => some name
  | .mistyped => none
  | .missing => none
  | .outOfRange => none
  | .tooManyDigits => none

end Error

end ParserAlgebra
