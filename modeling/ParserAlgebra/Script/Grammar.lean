import ParserAlgebra.Parser.Characters
import ParserAlgebra.Script.Data
import ParserAlgebra.Value.Operators

/-!
# Script/Grammar — operations on parsers and mappers

The library's combinators take parsers; a script has values.  An operation first asks each argument
to be what the combinator needs, in the order in which the combinator would miss it, and so it is
here that the first of two mistakes is found.
-/

namespace ParserAlgebra

namespace Scripted

variable {P : Type}

/-- The parser a value is, where a function asks for one. -/
def asParser (combinator : String) : Value P → Scripted P (Parser P)
  | .callable (.parser p) _ => return p
  | v => do raise (.grammar (.notParser combinator (← ofExcept v.shown)))

/-- The parser an operation is applied to; how it is written says what is wrong otherwise. -/
def asOperand (writing : Writing) (combinator : String) (v : Value P) : Scripted P (Parser P) :=
  match writing, v with
  | .function, v => asParser combinator v
  | _, .callable (.parser p) _ => return p
  | .operator, _ => raise .mistyped
  | .method, _ => raise .missing

/-- The callable a value is. -/
def asCallable (role : String) : Value P → Scripted P (Callable P)
  | .callable f _ => return f
  | v => do raise (.grammar (.notCallable role (← ofExcept v.shown)))

/-- The collection that is given, or else a list. -/
def asCollection : List (Value P) → Scripted P (Callable P)
  | [] => return Parser.gathered
  | collection :: _ => asCallable "collection" collection

/-- A declared arity: `default` if nothing is said, unknown if that is what is said. -/
def asArity (default : Option (Value P)) : List (Value P) → Option (Value P)
  | [] => default
  | .null :: _ => none
  | arity :: _ => some arity

/-- An index of a selection. -/
def asIndex : Value P → Scripted P Nat
  | .int i identity =>
    if 0 ≤ i then return i.toNat else raise (.grammar (.badIndex (.int i identity)))
  | v => do raise (.grammar (.badIndex (← ofExcept v.shown)))

/-- The mapper a value is. -/
def asMapper : Value P → Scripted P (Mapper P)
  | .callable (.mapper m) _ => return m
  | _ => raise .missing

/-- A parser just built, unless it was refused. -/
def build (p : Except (Error P) (Parser P)) : Scripted P (Value P) := do
  return .ofParser (← ofExcept p)

/-- A parser built from one whose name becomes part of its own. -/
def buildOn (p : Parser P) (f : Parser P → Parser P) : Scripted P (Value P) :=
  build (p.titled.map f)

/-- A parser that everyone shares: every mention of it is the same object. -/
def shared (n : Nat) (p : Parser P) : Value P := .callable (.parser p) (.ofShared n)

/-- A combination of many parsers; of one, it is that parser itself. -/
def joinAll [Labelled P] (junction : Junction) (combinator : String) (args : List (Value P)) :
    Scripted P (Value P) := do
  let ps ← args.mapM (asParser combinator)
  let p ← ofExcept (Parser.join junction ps)
  return match args with
    | [a] => a
    | _ => .ofParser p

/-- What an operator does to a parser; on anything else it has a meaning of its own. -/
def operate (v : Value P) (otherwise : Except (Error P) (Value P))
    (f : Parser P → Scripted P (Value P)) : Scripted P (Value P) :=
  match v with
  | .callable (.parser p) _ => f p
  | _ => ofExcept otherwise

/-- The name a parser of `f` is given: the one that is said, or else the one `f` brings along. -/
def nameFor [Labelled P] (f : Value P) : List (Value P) → Scripted P (Value P)
  | [] | .null :: _ => do return (← ofExcept f.shown).nameOrForm
  | name :: _ => return name

/-- A parser made of a value, which does not have to be callable until the parser runs.  A name and
an arity may be declared. -/
def rawParser [Labelled P] (f : Value P) (declared : List (Value P)) : Scripted P (Value P) := do
  return .ofParser (.raw f (← nameFor f declared) (asArity none (declared.drop 1)))

/-- How much fuel a script grants each call. -/
def scriptFuel : Nat := 1000000

/-- Calls a value in the session as it is. -/
def callValue [Primitive P] (f : Value P) (args : List (Value P)) : Scripted P (Value P) := do
  perform (f.invokeWith (call (← get).context scriptFuel) args)

/-- Parses a whole stream in the session as it is. -/
def parseStream [Primitive P] (p : Parser P) (stream : Value P) (full : Bool) :
    Scripted P (Value P) := do
  let (origin, tokens) ← ofExcept stream.asStream
  perform (p.parse (← get).context scriptFuel origin tokens full)

end Scripted

open Scripted

variable {P : Type}

/-- **An operation on parsers and mappers.** -/
def GrammarOperation.apply [Primitive P] (op : GrammarOperation) (args : List (Value P)) :
    Scripted P (Value P) :=
  match op, args with
  | .succeed, [] => return .ofParser .succeed
  | .fail, [] => return .ofParser .fail
  | .one, [] => return .ofParser .one
  | .endOfInput, [] => return shared 0 .endOfInput
  | .digit, [] => return shared 1 .digit
  | .letter, [] => return shared 2 .letter
  | .whitespace, [] => return shared 3 .whitespace
  | .spaces, [] => return shared 4 .spaces
  | .integer, [] => return shared 5 .integer
  | .identifier, [] => return shared 6 .identifier
  | .satisfy, [f] => do return .ofParser (.satisfy (← asCallable "predicate" f))
  | .token, [x] => do return .ofParser (.token (← ofExcept x.shown))
  | .tokenIn, [xs] => do
    let options ← perform xs.read
    return .ofParser (.tokenIn (← ofExcept (options.mapM Value.shown)))
  | .optional .operator, [v] => operate v v.complemented fun p => buildOn p .optional
  | .optional writing, [p] => do buildOn (← asOperand writing "optional" p) .optional
  | .repeat0 .operator, [v] => operate v v.negated fun p => buildOn p (.repeat0 · Parser.gathered)
  | .repeat0 writing, p :: collection => do
    let p ← asOperand writing "repeat" p
    let collection ← asCollection collection
    buildOn p (.repeat0 · collection)
  | .repeat1 .operator, [v] => operate v v.affirmed fun p => buildOn p (.repeat1 · Parser.gathered)
  | .repeat1 writing, p :: collection => do
    let p ← asOperand writing "repeat" p
    let collection ← asCollection collection
    buildOn p (.repeat1 · collection)
  | .map .operator, [v, f] => operate v (v.indexedBy f) fun p => do
    let f ← asCallable "mapper" f
    build (p.map (.ofCallable f))
  | .map writing, [p, f] => do
    let p ← asOperand writing "map" p
    let f ← asCallable "mapper" f
    build (p.map (.ofCallable f))
  | .tryMap writing, [p, f] => do
    let p ← asOperand writing "map" p
    let f ← asCallable "mapper" f
    build (p.map (.fallibleOfCallable f))
  | .sequence, ps => joinAll .sequence "sequence" ps
  | .alternative, ps => joinAll .alternative "alternative" ps
  | .both, [v, q] => operate v (v.meet q) fun p => do build (p.both (← asParser "sequence" q))
  | .either, [v, q] => operate v (v.union q) fun p => do
    build (p.either (← asParser "alternative" q))
  | .skip, [p] => do build (← asParser "map" p).skip
  | .separated, p :: separator :: collection => do
    let separator ← asParser "map" separator
    let _ ← ofExcept separator.skip
    let p ← asParser "sequence" p
    build (p.separated separator (collection.head?.getD Constant.gather.value))
  | .chainLeft, [operand, operator] => do
    let operator ← asParser "sequence" operator
    let operand ← asParser "sequence" operand
    build (operand.chainLeft operator)
  | .chainRight, [operand, operator] => do
    let operand ← asParser "sequence" operand
    let operator ← asParser "sequence" operator
    build (operand.chainRight operator)
  | .lexeme, [p] => do build (← asParser "sequence" p).lexeme
  | .combinator, [.null] => return .ofAction .wrap
  | .combinator, f :: declared => rawParser f declared
  | .parser, f :: declared => rawParser f declared
  | .rule, .text target _ :: declared => rawParser (.ofAction (.rule target)) declared
  | .named, [p, .null] => do
    let p ← asOperand .method "" p
    return .ofParser (p.named (← ofExcept p.body.ownName))
  | .named, [p, label] => do return .ofParser ((← asOperand .method "" p).named label)
  | .total, f :: rest => do
    let f ← asCallable "mapper" f
    return .ofMapper (.total f (asArity (some (.ofInt 1)) rest))
  | .fallible, f :: rest => do
    let f ← asCallable "mapper" f
    return .ofMapper (.fallible f (asArity (some (.ofInt 1)) rest))
  | .filter, [f] => do return .ofMapper (.filter (← asCallable "predicate" f))
  | .select, indices => do
    let is ← indices.mapM asIndex
    return .ofMapper (← ofExcept (Mapper.select? is))
  | .foldl, [f] => do return .ofMapper (.foldl (← asCallable "fold function" f))
  | .foldr, [f] => do return .ofMapper (.foldr (← asCallable "fold function" f))
  | .name, [p] => do return (← asOperand .method "" p).name
  | .arity, [.callable (.mapper m) _] => return m.declared.getD .null
  | .arity, [p] => do return (← asOperand .method "" p).declared.getD .null
  | .requires, [m] => do return .ofInt (← asMapper m).requires
  | .resultArity, [m, input] => do
    return match ← asMapper m with
      | .filter _ => input
      | m => m.declared.getD .null
  | .call, f :: args => callValue f args
  | .parse, p :: stream :: full => do
    let p ← asOperand .method "" p
    parseStream p stream ((full.head?.map Value.isTruthy).getD true)
  | _, _ => raise .mistyped

end ParserAlgebra
