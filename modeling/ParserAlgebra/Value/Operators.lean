import ParserAlgebra.Value.Fields

/-!
# Value/Operators — the operators on what is no parser

The operators of parsers are those of numbers, sets and sequences as well: a sign in front, the
complement, conjunction and disjunction, an index.  On whole numbers the last two go bit by bit, as
if each number were written in two's complement with its sign bit repeated forever.
-/

namespace ParserAlgebra

namespace Number

/-- The whole number that has a bit where both have one. -/
def bitAnd : Int → Int → Int
  | .ofNat m, .ofNat n => .ofNat (m &&& n)
  | .ofNat m, .negSucc n => .ofNat (m - (m &&& n))
  | .negSucc m, .ofNat n => .ofNat (n - (n &&& m))
  | .negSucc m, .negSucc n => .negSucc (m ||| n)

/-- The whole number that has a bit where one of the two does, or both. -/
def bitOr (m n : Int) : Int := -bitAnd (-m - 1) (-n - 1) - 1

end Number

namespace CharSet

/-- The characters of a list by code point, each once. -/
def sorted (cs : List Char) : CharSet :=
  (cs.mergeSort fun c d => c.toNat ≤ d.toNat).eraseDups

end CharSet

namespace Value

variable {P : Type}

/-- A minus sign in front of a value.  What is no number stays none. -/
def negated : Value P → Except (Error P) (Value P)
  | nan _ => .ok (nan none)
  | x => match x.number? with
    | some n => .ok (ofNumber n.neg)
    | none => .error .mistyped

/-- A plus sign in front of a value: a truth value becomes a number, and a number stays the object
it is. -/
def affirmed : Value P → Except (Error P) (Value P)
  | bool b => .ok (ofInt (Number.ofTruth b))
  | int i identity => .ok (int i identity)
  | decimal d identity => .ok (decimal d identity)
  | nan identity => .ok (nan identity)
  | _ => .error .mistyped

/-- The complement of a whole number. -/
def complemented (x : Value P) : Except (Error P) (Value P) :=
  match x.number?.bind Number.whole? with
  | some i => .ok (ofInt (-i - 1))
  | none => .error .mistyped

/-- Two values under an operator that is known on truth values, whole numbers and sets. -/
def combined (onTruth : Bool → Bool → Bool) (onInt : Int → Int → Int)
    (onSet : CharSet → CharSet → CharSet) : Value P → Value P → Except (Error P) (Value P)
  | bool b, bool c => .ok (bool (onTruth b c))
  | charset cs _, charset ds _ => .ok (charset (onSet cs ds) none)
  | x, y => match x.number?.bind Number.whole?, y.number?.bind Number.whole? with
    | some i, some j => .ok (ofInt (onInt i j))
    | _, _ => .error .mistyped

/-- What is in both values. -/
def meet : Value P → Value P → Except (Error P) (Value P) :=
  combined and Number.bitAnd fun cs ds => cs.filter ds.contains

/-- What is in one of two values, or in both. -/
def union : Value P → Value P → Except (Error P) (Value P) :=
  combined or Number.bitOr fun cs ds => CharSet.sorted (cs ++ ds)

/-- The element of some elements at an index, which counts from the end if it is negative. -/
def elementAt (xs : List (Value P)) (index : Value P) : Except (Error P) (Value P) :=
  match index.number?.bind Number.whole? with
  | some i => match Cursor.tokenAt? xs i with
    | some x => .ok x
    | none => .error .outOfRange
  | none => .error .mistyped

/-- The element of a sequence at an index. -/
def indexedBy (x index : Value P) : Except (Error P) (Value P) :=
  match x with
  | list xs _ => elementAt xs index
  | tuple xs _ => elementAt xs index
  | composite xs _ => elementAt xs index
  | text s _ => elementAt (characters s) index
  | _ => .error .mistyped

end Value

end ParserAlgebra
