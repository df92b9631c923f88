import ParserAlgebra.ArgumentCount
import ParserAlgebra.Value

/-!
# Script/Expression — what a script is written in

A script is a list of steps, each an expression whose value may be given a name.  An expression is a
literal, a name, or an operation applied to the values of other expressions, evaluated from left to
right.

Most operations exist once in the library and up to three times in writing: as a function, as an
operator, as a method of a parser.  The three differ only in how they turn away something that is no
parser, so the way of writing is a parameter of the operation.
-/

namespace ParserAlgebra

/-- How an operation on a parser is written. -/
inductive Writing where
  | function
  | operator
  | method
deriving DecidableEq

/-- A value that is there from the start. -/
inductive Constant where
  | whitespace | digits | letters | alphanumerics
  /-- What collects a repetition if nothing else is said. -/
  | gather

/-- The value a constant stands for, the same object every time. -/
def Constant.value {P : Type} : Constant → Value P
  | whitespace => .charset .whitespace (.ofConstant 0)
  | digits => .charset .digits (.ofConstant 1)
  | letters => .charset .letters (.ofConstant 2)
  | alphanumerics => .charset .alphanumerics (.ofConstant 3)
  | gather => .callable (.action .gather) (.ofConstant 4)

/-- Building and examining values. -/
inductive DataOperation where
  | list | tuple | composite | iterable
  | present | absent | newAbsent | success | failure | newFailure
  | known (c : Constant)
  | render | truth | size | equal | different | within | identical | countDistinct
  | tupleOf | asComposite | unwrap | concat
  | always | unnamed

/-- Cursors, the fields of a result, and reports. -/
inductive CursorOperation where
  | start | linked | atEnd | current | advance | position
  | value | next
  | report | appendNote | throwReport
  | setDebug | isDebug

/-- Building, examining and running parsers and mappers. -/
inductive GrammarOperation where
  | succeed | fail | one | endOfInput
  | digit | letter | whitespace | spaces | integer | identifier
  | satisfy | token | tokenIn
  | optional (writing : Writing) | repeat0 (writing : Writing) | repeat1 (writing : Writing)
  | map (writing : Writing) | tryMap (writing : Writing)
  | sequence | alternative | both | either
  | skip | separated | chainLeft | chainRight | lexeme
  | parser | combinator | rule | named
  | total | fallible | filter | select | foldl | foldr
  | name | arity | requires | resultArity
  | call | parse

/-- **An operation of a script.** -/
inductive Operation (P : Type) where
  | data (op : DataOperation)
  | cursor (op : CursorOperation)
  | grammar (op : GrammarOperation)
  | primitive (f : P)

/-! ## How many arguments an operation takes -/

def DataOperation.takes : DataOperation → ArgumentCount
  | .list | .tuple | .composite | .iterable | .countDistinct | .tupleOf | .concat => .any
  | .absent | .newAbsent | .failure | .newFailure | .known _ => .exactly 0
  | .success | .equal | .different | .within | .identical => .exactly 2
  | _ => .exactly 1

def CursorOperation.takes : CursorOperation → ArgumentCount
  | .start | .linked => .between 1 2
  | .report | .appendNote => .between 2 3
  | .setDebug => .between 0 1
  | .isDebug => .exactly 0
  | _ => .exactly 1

def GrammarOperation.takes : GrammarOperation → ArgumentCount
  | .succeed | .fail | .one | .endOfInput | .digit | .letter | .whitespace | .spaces | .integer
  | .identifier => .exactly 0
  | .repeat0 .operator | .repeat1 .operator => .exactly 1
  | .repeat0 _ | .repeat1 _ | .total | .fallible => .between 1 2
  | .map _ | .tryMap _ | .both | .either | .chainLeft | .chainRight | .named
  | .resultArity => .exactly 2
  | .sequence | .alternative | .select => .any
  | .separated | .parse => .between 2 3
  | .parser | .combinator | .rule => .between 1 3
  | .call => .atLeast 1
  | _ => .exactly 1

def Operation.takes {P : Type} : Operation P → ArgumentCount
  | .data op => op.takes
  | .cursor op => op.takes
  | .grammar op => op.takes
  | .primitive _ => .exactly 0

/-- **An expression of a script.** -/
inductive Expression (P : Type) where
  | literal (v : Value P)
  | name (x : String)
  | apply (op : Operation P) (args : List (Expression P))

/-- One step: an expression, and the name its value is bound to, if any. -/
structure Step (P : Type) where
  bound : Option String
  body : Expression P

end ParserAlgebra
