import ParserAlgebra.Report
import ParserAlgebra.Text.CharSet

/-!
# Value — tokens, results, and the grammars that relate them

Tokens, produced values, parsers and the actions of a grammar are one family of types: a parser may
itself be a token, a mapper may produce a function that a later one calls, and a function may be
handed in where a parser's result is expected.  So the family is one mutual block.

Nothing in it is a host function.  A *primitive* is a name of type `P`; what the name does is
supplied separately (`Primitive P`), so that every statement about grammars holds for all functions
a host might bring along.

## What a parser produces

A `composite` is the flat list of components a sequence produces.  It is the only value that is
flattened or unwrapped; a plain `tuple`, which equals it component for component, is one component.

## Objects

Values have an identity beside their content: two streams are one only if they are the same object,
and so are two callables.  What was just made has none yet (`Identity`).
-/

namespace ParserAlgebra

/-- The two operators whose repeated use makes one flat combinator. -/
inductive Junction where
  | sequence
  | alternative
deriving DecidableEq

mutual

/-- A token, a produced value, a result, or an object that works on them. -/
inductive Value (P : Type) where
  | null
  | bool (b : Bool)
  | int (i : Int) (identity : Identity)
  | decimal (d : Decimal) (identity : Identity)
  /-- Stands where a decimal would and is no number.  It equals nothing, itself included. -/
  | nan (identity : Identity)
  /-- Says that it equals whatever it is compared with. -/
  | anything (identity : Identity)
  | text (s : String) (identity : Identity)
  | charset (cs : CharSet) (identity : Identity)
  | list (xs : List (Value P)) (identity : Identity)
  | tuple (xs : List (Value P)) (identity : Identity)
  /-- The components a sequence produces. -/
  | composite (xs : List (Value P)) (identity : Identity)
  /-- Can be read from front to back and nothing else. -/
  | iterable (xs : List (Value P)) (identity : Identity)
  /-- An optional value that is there. -/
  | present (x : Value P) (identity : Identity)
  /-- An optional value that is not there. -/
  | absent
  /-- Says the same as `absent`, and is another object. -/
  | anotherAbsent (identity : Identity)
  | cursor (c : Cursor (Value P)) (identity : Identity)
  /-- A linked cursor that nothing can be read from: it is on something that is no stream, or at
  something that is no number. -/
  | stray (stream place : Value P) (identity : Identity)
  /-- A match: what was produced, and the cursor after the consumed tokens. -/
  | success (value next : Value P) (identity : Identity)
  /-- No match. -/
  | failure
  /-- Says the same as `failure`, and is another object. -/
  | anotherFailure (identity : Identity)
  | callable (f : Callable P) (identity : Identity)
  | report (r : Report (Value P)) (identity : Identity)

/-- What can be called with arguments. -/
inductive Callable (P : Type) where
  | parser (p : Parser P)
  | mapper (m : Mapper P)
  | action (a : Action P)

/-- **A parser**: what it does, under a name.  `declared` is the number of components it is known to
produce; `chain` lists the operands if it was written with one operator over and over.  A name is a
text and an arity a number unless someone declares something else, which then is kept as it is. -/
structure Parser (P : Type) where
  name : Value P
  declared : Option (Value P)
  body : Body P
  chain : Option (Junction × List (Parser P)) := none

/-- What a parser does at a cursor. -/
inductive Body (P : Type) where
  /-- Produces no components and consumes nothing. -/
  | succeed
  | fail
  /-- Consumes one token and produces it. -/
  | one
  /-- Produces no components, and only at the end. -/
  | endOfInput
  | optional (p : Parser P)
  | sequence (ps : List (Parser P))
  | alternative (ps : List (Parser P))
  | repeat0 (p : Parser P) (collection : Callable P)
  | repeat1 (p : Parser P) (collection : Callable P)
  | map (p : Parser P) (m : Mapper P)
  /-- Whatever a callable makes of the cursor.  Only calling it shows whether it can be called. -/
  | raw (f : Value P)

/-- Turns the components of a value into a new value, or refuses them. -/
inductive Mapper (P : Type) where
  /-- Always produces what the callable returns; `declared` is how many components that is. -/
  | total (f : Callable P) (declared : Option (Value P))
  /-- Keeps the components at the indices, in their order. -/
  | select (indices : List Nat)
  /-- The callable answers with an optional value; an absent one refuses. -/
  | fallible (f : Callable P) (declared : Option (Value P))
  /-- Passes the components on if the predicate holds for them, and refuses them otherwise. -/
  | filter (predicate : Callable P)

/-- A function that a grammar calls. -/
inductive Action (P : Type) where
  | primitive (f : P)
  /-- Returns `x` whatever it is called with. -/
  | constant (x : Value P)
  /-- The same function without its name. -/
  | unnamed (a : Action P)
  /-- Lists the elements of its argument. -/
  | gather
  /-- Makes a parser of its argument. -/
  | wrap
  /-- Calls what the name is bound to at the moment of the call. -/
  | rule (name : String)
  | equals (x : Value P)
  | oneOf (xs : List (Value P))
  | inSet (cs : CharSet)
  /-- Produces no components. -/
  | discard
  /-- Makes one list of the leading components and the elements of the last. -/
  | collectSeparated (collection : Value P)
  | foldLeft (step : Callable P)
  | foldRight (step : Callable P)
  /-- Applies the function in front of an operand to what is on its left and to it. -/
  | stepLeft
  /-- Applies the function behind an operand to it and to what is on its right. -/
  | stepRight
  | choose (indices : List Nat)
  /-- An optional sign and a list of digits, as a number. -/
  | toInteger
  /-- A first character and a list of further ones, as a text. -/
  | joinWord

end

/-- Names for primitives, as they are shown. -/
class Labelled (P : Type) where
  label : P → String

namespace Value

variable {P : Type}

/-- A whole number. -/
def ofInt (i : Int) : Value P := .int i (.ofInt i)

/-- A text as it is read or written down. -/
def ofText (s : String) : Value P := .text s (.ofText s)

/-- A text that was put together from others: a new one, however short, unless it is empty. -/
def newText (s : String) : Value P := .text s (if s.isEmpty then .ofEmptyText else none)

/-- A name of the library's own. -/
def word (s : String) : Value P := .text s (.ofWord s)

/-- A token of a character stream. -/
def char (c : Char) : Value P := .text c.toString (.ofChar c)

/-- The tokens of a text are its characters. -/
def characters (s : String) : List (Value P) := s.toList.map char

/-- A plain tuple. -/
def ofTuple (xs : List (Value P)) : Value P :=
  .tuple xs (if xs.isEmpty then .ofEmptyTuple else none)

def ofParser (p : Parser P) : Value P := .callable (.parser p) none

def ofMapper (m : Mapper P) : Value P := .callable (.mapper m) none

def ofAction (a : Action P) : Value P := .callable (.action a) none

def ofNumber : Number → Value P
  | .int i => .ofInt i
  | .truth b => .bool b
  | .decimal d => .decimal d none

/-- The number a value is, if it is one. -/
def number? : Value P → Option Number
  | .int i _ => some (.int i)
  | .bool b => some (.truth b)
  | .decimal d _ => some (.decimal d)
  | _ => none

def isText : Value P → Bool
  | .text _ _ => true
  | _ => false

/-- **Whether a value counts as true.**  A parser's result is tested for truth, so everything that
is false here is a failure. -/
def isTruthy : Value P → Bool
  | .null => false
  | .bool b => b
  | .int i _ => i != 0
  | .decimal d _ => !d.isZero
  | .text s _ => !s.isEmpty
  | .charset cs _ => !cs.isEmpty
  | .list xs _ => !xs.isEmpty
  | .tuple xs _ => !xs.isEmpty
  | .composite xs _ => !xs.isEmpty
  | .absent => false
  | .anotherAbsent _ => false
  | .failure => false
  | .anotherFailure _ => false
  | _ => true

/-- **Which object a value is.** -/
def identity : Value P → Identity
  | null => .ofNull
  | bool b => .ofBool b
  | int _ identity => identity
  | decimal _ identity => identity
  | nan identity => identity
  | anything identity => identity
  | text _ identity => identity
  | charset _ identity => identity
  | list _ identity => identity
  | tuple _ identity => identity
  | composite _ identity => identity
  | iterable _ identity => identity
  | present _ identity => identity
  | absent => .ofAbsent
  | anotherAbsent identity => identity
  | cursor _ identity => identity
  | stray _ _ identity => identity
  | success _ _ identity => identity
  | failure => .ofFailure
  | anotherFailure identity => identity
  | callable _ identity => identity
  | report _ identity => identity

/-- A number is read back as it was written. -/
@[simp] theorem number?_ofNumber (n : Number) : (ofNumber n : Value P).number? = some n := by
  cases n <;> rfl

@[simp] theorem isTruthy_success (v n : Value P) (identity : Identity) :
    (success v n identity).isTruthy = true := rfl
@[simp] theorem isTruthy_failure : (failure : Value P).isTruthy = false := rfl

end Value

/-- **The number of components a parser is known to produce.** -/
def Parser.arity {P : Type} (p : Parser P) : Option Int :=
  (p.declared.bind Value.number?).bind Number.whole?

namespace Action

variable {P : Type} [Labelled P]

/-- How an action is labelled wherever it is shown. -/
def label? : Action P → Option String
  | .primitive f => some (Labelled.label f)
  | .constant _ => some "const"
  | .unnamed a => a.label?
  | .gather => some "list"
  | .wrap => some "decorator"
  | .rule name => some name
  | _ => none

/-- The name a parser takes from the action it is made of.  The library's own predicates were never
given one and share a common stand-in. -/
def name? : Action P → Option String
  | .unnamed _ => none
  | .equals _ => some "<lambda>"
  | .oneOf _ => some "<lambda>"
  | .inSet _ => some "<lambda>"
  | a => a.label?

end Action

end ParserAlgebra
