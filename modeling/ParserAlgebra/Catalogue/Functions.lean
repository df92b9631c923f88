import ParserAlgebra.ArgumentCount
import ParserAlgebra.Call

/-!
# Catalogue/Functions — a stock of functions on values

A host brings functions of its own; these are the ones that come along.  Most are what a small
grammar maps with: tests of a token, arithmetic, the shapes a mapper may answer with.  Each has a
label, checks how many arguments it is called with, and refuses arguments it has no answer for.
-/

namespace ParserAlgebra

/-- What a function says of a call it cannot answer. -/
def wrongCount {P : Type} (label : String) (count : Nat) : Error P :=
  .primitive (label ++ ": wrong number of arguments (" ++ toString count ++ ")")

/-- What a function says of an argument it cannot answer for. -/
def badArgument {P : Type} (label : String) : Error P := .primitive (label ++ ": bad argument")

/-- **A function on values.** -/
inductive ValueFunction where
  | always | never | isDigit | isUpper | isLower | isStr | isInt | eq
  | ne | lt | allSame | nonempty | count | same | upper | ord
  | toInt | neg | get | depth | pair | swap | args | tup
  | vals | valsRev | valsTwice | nest | first | last | noValue | empty
  | raise | add | sub | mul | pow | floordiv | cat | bracket
  | absent | present | presentVals | presentNest | presentAbsent | digitValue | list | tuple
  | rev | valsOf | presentOf | join | sum | len

namespace ValueFunction

def all : List ValueFunction :=
  [.always, .never, .isDigit, .isUpper, .isLower, .isStr, .isInt, .eq,
   .ne, .lt, .allSame, .nonempty, .count, .same, .upper, .ord,
   .toInt, .neg, .get, .depth, .pair, .swap, .args, .tup,
   .vals, .valsRev, .valsTwice, .nest, .first, .last, .noValue, .empty,
   .raise, .add, .sub, .mul, .pow, .floordiv, .cat, .bracket,
   .absent, .present, .presentVals, .presentNest, .presentAbsent, .digitValue, .list, .tuple,
   .rev, .valsOf, .presentOf, .join, .sum, .len]

def label : ValueFunction → String
  | .always => "always"
  | .never => "never"
  | .isDigit => "is_digit"
  | .isUpper => "is_upper"
  | .isLower => "is_lower"
  | .isStr => "is_str"
  | .isInt => "is_int"
  | .eq => "eq"
  | .ne => "ne"
  | .lt => "lt"
  | .allSame => "all_same"
  | .nonempty => "nonempty"
  | .count => "count"
  | .same => "id"
  | .upper => "upper"
  | .ord => "ord"
  | .toInt => "to_int"
  | .neg => "neg"
  | .get => "get"
  | .depth => "depth"
  | .pair => "pair"
  | .swap => "swap"
  | .args => "args"
  | .tup => "tup"
  | .vals => "vals"
  | .valsRev => "vals_rev"
  | .valsTwice => "vals_twice"
  | .nest => "nest"
  | .first => "first"
  | .last => "last"
  | .noValue => "none"
  | .empty => "empty"
  | .raise => "raise"
  | .add => "add"
  | .sub => "sub"
  | .mul => "mul"
  | .pow => "pow"
  | .floordiv => "floordiv"
  | .cat => "cat"
  | .bracket => "bracket"
  | .absent => "nothing"
  | .present => "some"
  | .presentVals => "some_vals"
  | .presentNest => "some_nest"
  | .presentAbsent => "some_nothing"
  | .digitValue => "digit_value"
  | .list => "list"
  | .tuple => "tuple"
  | .rev => "rev"
  | .valsOf => "vals_of"
  | .presentOf => "some_of"
  | .join => "join"
  | .sum => "sum"
  | .len => "len"

def ofLabel? (text : String) : Option ValueFunction := all.find? fun f => f.label == text

def takes : ValueFunction → ArgumentCount
  | .isDigit | .isUpper | .isLower | .isStr | .isInt | .same | .upper | .ord | .toInt
  | .neg | .get | .depth | .present | .digitValue | .list | .tuple | .rev | .valsOf
  | .presentOf | .join | .sum | .len => .exactly 1
  | .eq | .ne | .lt | .pair | .swap | .add | .sub | .mul | .pow | .floordiv | .cat
  | .bracket => .exactly 2
  | .first | .last => .atLeast 1
  | _ => .any

variable {P : Type}

/-- What a sequence or an iterable holds; a text has no items. -/
def items? : Value P → Option (List (Value P))
  | .list xs _ => some xs
  | .tuple xs _ => some xs
  | .composite xs _ => some xs
  | .iterable xs _ => some xs
  | _ => none

def texts? : List (Value P) → Option (List String)
  | [] => some []
  | .text s _ :: xs => (texts? xs).map (s :: ·)
  | _ :: _ => none

def integers? : List (Value P) → Option (List Int)
  | [] => some []
  | .int i _ :: xs => (integers? xs).map (i :: ·)
  | _ :: _ => none

/-- The one character of a text that has just one. -/
def onlyChar? (s : String) : Option Char :=
  match s.toList with
  | [c] => some c
  | _ => none

/-- The digit a one-character text is. -/
def digit? : Value P → Option Nat
  | .text s _ => (onlyChar? s).bind fun c =>
    if c.isDigit then some (c.toNat - '0'.toNat) else none
  | _ => none

/-- A text of one to four thousand decimal digits, read as a number. -/
def number? (s : String) : Option Nat :=
  let cs := s.toList
  if cs.isEmpty || 4000 < cs.length || !cs.all Char.isDigit then none
  else some (Decimal.ofDigits cs)

/-- One more than a number.  What is no number stays none. -/
def successor? : Value P → Option (Value P)
  | .nan _ => some (.nan none)
  | x => x.number?.map fun n => .ofNumber (n.add (.int 1))

/-- One text behind another.  Where one of them is empty, the other is all there is. -/
def appended : String × Identity → String × Identity → Value P
  | (a, i), (b, j) =>
    if a.isEmpty then .text b j else if b.isEmpty then .text a i else .newText (a ++ b)

/-- Texts one behind the other.  A single one is all there is. -/
def joined? : List (Value P) → Option (Value P)
  | [.text s identity] => some (.text s identity)
  | xs => (texts? xs).map fun ts => .newText (String.join ts)

/-- **The answer of a function**, if it has one. -/
def answer? (f : ValueFunction) (args : List (Value P)) : Option (Value P) :=
  match f, args with
  | .always, _ => some (.bool true)
  | .never, _ => some (.bool false)
  | .isDigit, [x] => some (.bool (x.isInSet .digits))
  | .isUpper, [x] => some (.bool (x.isInSet (.between 'A' 'Z')))
  | .isLower, [x] => some (.bool (x.isInSet (.between 'a' 'z')))
  | .isStr, [.text _ _] => some (.bool true)
  | .isStr, [_] => some (.bool false)
  | .isInt, [.int _ _] => some (.bool true)
  | .isInt, [_] => some (.bool false)
  | .eq, [x, y] => some (.bool (x.equals y))
  | .ne, [x, y] => some (.bool (!x.equals y))
  | .lt, [.int a _, .int b _] => some (.bool (a < b))
  | .lt, [.text a _, .text b _] => some (.bool (a < b))
  | .allSame, [] => some (.bool true)
  | .allSame, x :: xs => some (.bool (xs.all x.equals))
  | .nonempty, xs => some (.ofInt xs.length)
  | .count, xs => some (.ofInt xs.length)
  | .same, [x] => some x
  | .upper, [.text s _] => some (.ofText (String.ofList (s.toList.map Char.toUpper)))
  | .ord, [.text s _] => (onlyChar? s).map fun c => .ofInt c.toNat
  | .toInt, [.text s _] => (number? s).map fun n => .ofInt n
  | .neg, [.int a _] => some (.ofInt (-a))
  | .get, [.present x _] => some x
  | .get, [x] => if x.isAbsent then some .null else none
  | .depth, [.present x _] => successor? x
  | .depth, [x] => if x.isAbsent then some (.ofInt 1) else none
  | .pair, [x, y] => some (.ofTuple [x, y])
  | .swap, [x, y] => some (.ofTuple [y, x])
  | .args, xs => some (.list xs none)
  | .tup, xs => some (.ofTuple xs)
  | .vals, xs => some (.composite xs none)
  | .valsRev, xs => some (.composite xs.reverse none)
  | .valsTwice, xs => some (.composite (xs ++ xs) none)
  | .nest, xs => some (.composite [.composite xs none] none)
  | .first, xs => xs.head?
  | .last, xs => xs.getLast?
  | .noValue, _ => some .null
  | .empty, _ => some (.composite [] none)
  | .add, [.int a _, .int b _] => some (.ofInt (a + b))
  | .sub, [.int a _, .int b _] => some (.ofInt (a - b))
  | .mul, [.int a _, .int b _] => some (.ofInt (a * b))
  | .pow, [.int a _, .int b _] =>
    if 0 ≤ b ∧ b ≤ 64 then some (.ofInt (Int.pow a b.toNat)) else none
  | .floordiv, [.int a _, .int b _] =>
    if b = 0 then none else some (.ofInt (Int.fdiv a b))
  | .cat, [.text a i, .text b j] => some (appended (a, i) (b, j))
  | .bracket, [.text a _, .text b _] => some (.newText ("(" ++ a ++ b ++ ")"))
  | .absent, _ => some .absent
  | .present, [x] => some (.present x none)
  | .presentVals, xs => some (.present (.composite xs none) none)
  | .presentNest, xs => some (.present (.composite [.composite xs none] none) none)
  | .presentAbsent, _ => some (.present .absent none)
  | .digitValue, [x] => match digit? x with
    | some n => some (.present (.ofInt n) none)
    | none => some .absent
  | .list, [x] => (items? x).map fun xs => .list xs none
  | .tuple, [x] => (items? x).map fun xs => .ofTuple xs
  | .rev, [x] => (items? x).map fun xs => .list xs.reverse none
  | .valsOf, [x] => (items? x).map fun xs => .composite xs none
  | .presentOf, [x] => (items? x).map fun xs => .present (.list xs none) none
  | .join, [x] => (items? x).bind joined?
  | .sum, [x] => (items? x).bind fun xs => (integers? xs).map fun ns => .ofInt (ns.foldl (· + ·) 0)
  | .len, [x] => (items? x).map fun xs => .ofInt xs.length
  | _, _ => none

/-- What a function without an answer says.  The depth of an optional value that is there is one
more than what it holds, and what cannot be added to is mistyped. -/
def refusal (f : ValueFunction) (args : List (Value P)) : Error P :=
  match f, args with
  | .raise, _ => .primitive "raised"
  | .depth, [.present _ _] => .mistyped
  | f, _ => badArgument f.label

/-- **A function called with arguments.** -/
def call (f : ValueFunction) (args : List (Value P)) : Except (Error P) (Value P) :=
  if !f.takes.admits args.length then .error (wrongCount f.label args.length)
  else match f.answer? args with
    | some x => .ok x
    | none => .error (f.refusal args)

end ValueFunction

end ParserAlgebra
