import ParserAlgebra.Error
import ParserAlgebra.Value.Equality

/-!
# Value/Elements — listing, indexing, counting and searching

Some values have elements: sequences of every kind, the characters of a text, and what an iterable
lists.  From the back, a sequence or a text is read by its places; everything else is listed first
(`reversed_eq`: the same elements in reverse, either way).

Writing a parser where a sequence is wanted reads as `parser[i]`, the operator that applies a mapper;
an index is no mapper, so that is an error of the grammar and names the index.
-/

namespace ParserAlgebra.Value

variable {P : Type}

/-- A parser indexed by something that cannot be called, and so is no mapper. -/
def indexedParser (index : Value P) : Error P := .grammar (.notCallable "mapper" index)

/-- **The elements of a value**, in order. -/
def elements : Value P → Except (Error P) (List (Value P))
  | list xs _ => .ok xs
  | tuple xs _ => .ok xs
  | composite xs _ => .ok xs
  | iterable xs _ => .ok xs
  | text s _ => .ok (characters s)
  | charset cs _ => .ok (cs.map char)
  | callable (.parser _) _ => .error (indexedParser (ofInt 0))
  | _ => .error .mistyped

/-- The `i`-th of some elements. -/
def itemOf (xs : List (Value P)) (i : Nat) : Except (Error P) (Value P) :=
  match xs[i]? with
  | some x => .ok x
  | none => .error .outOfRange

/-- The `i`-th element of a value that can be indexed. -/
def item (i : Nat) : Value P → Except (Error P) (Value P)
  | list xs _ => itemOf xs i
  | tuple xs _ => itemOf xs i
  | composite xs _ => itemOf xs i
  | text s _ => itemOf (characters s) i
  | callable (.parser _) _ => .error (indexedParser (ofInt i))
  | _ => .error .mistyped

/-- A stream is whatever knows how many elements it has: this is where its tokens come from, and
the tokens. -/
def asStream : Value P → Except (Error P) (Origin × List (Value P))
  | list xs identity => .ok (⟨identity, true⟩, xs)
  | tuple xs identity => .ok (⟨identity, true⟩, xs)
  | composite xs identity => .ok (⟨identity, true⟩, xs)
  | text s identity => .ok (⟨identity, true⟩, characters s)
  | charset cs identity => .ok (⟨identity, false⟩, cs.map char)
  | _ => .error .mistyped

/-- How many elements a value has, for those that know. -/
def size (x : Value P) : Except (Error P) Nat := x.asStream.map fun s => s.2.length

/-- Whether a value has its elements in places, so that it can be read from the back as well. -/
def isReversible : Value P → Bool
  | list _ _ => true
  | tuple _ _ => true
  | composite _ _ => true
  | text _ _ => true
  | _ => false

/-- **The elements of a value from the back**: by their places, the last one first, if it can be
read from there.  Otherwise they are all listed from the front before. -/
def reversed (x : Value P) : Except (Error P) (List (Value P)) :=
  if x.isReversible then do
    let n ← x.size
    (List.range n).reverse.mapM fun i => x.item i
  else do
    let xs ← x.elements
    return xs.reverse

/-- Whether one list of characters stands in another without a gap. -/
def occursIn (cs : List Char) : List Char → Bool
  | [] => cs.isEmpty
  | d :: ds => cs.isPrefixOf (d :: ds) || occursIn cs ds

/-- Membership in a set of characters, which only a hashable value can be asked for. -/
def memberOf (cs : CharSet) (x : Value P) : Except (Error P) Bool :=
  if x.isHashable then .ok (x.isInSet cs) else .error .mistyped

/-- **Whether `x` is among the elements of a value.**  In a text, it is so if it is part of it. -/
def contains (x : Value P) : Value P → Except (Error P) Bool
  | text s _ => match x with
    | text t _ => .ok (occursIn t.toList s.toList)
    | _ => .error .mistyped
  | charset cs _ => memberOf cs x
  | y => y.elements.map x.isIn

@[simp] theorem elements_list (xs : List (Value P)) (identity : Identity) :
    (list xs identity).elements = .ok xs := rfl

@[simp] theorem elements_composite (xs : List (Value P)) (identity : Identity) :
    (composite xs identity).elements = .ok xs := rfl

/-- The first places hold the first elements, and from the last of them on their reverse. -/
theorem mapM_itemOf (xs : List (Value P)) {n : Nat} (hn : n ≤ xs.length) :
    (List.range n).reverse.mapM (itemOf xs) = .ok (xs.take n).reverse := by
  induction n with
  | zero => rfl
  | succ n ih =>
    have last : itemOf xs n = .ok xs[n] := by rw [itemOf, List.getElem?_eq_getElem hn]
    rw [List.range_succ, List.reverse_append, List.reverse_singleton, List.singleton_append,
      List.mapM_cons, ih (by omega), last, ← List.take_append_getElem hn, List.reverse_append]
    rfl

/-- **From the back or from the front**: the elements are the same, in reverse. -/
theorem reversed_eq (x : Value P) : x.reversed = x.elements.map List.reverse := by
  have all (xs : List (Value P)) :
      (List.range xs.length).reverse.mapM (itemOf xs) = .ok xs.reverse := by
    rw [mapM_itemOf xs (Nat.le_refl _), List.take_length]
  have listed (h : x.isReversible = false) : x.reversed = x.elements.map List.reverse := by
    rw [reversed, if_neg (by simp [h])]
    cases x.elements <;> rfl
  cases x with
  | list xs _ => exact all xs
  | tuple xs _ => exact all xs
  | composite xs _ => exact all xs
  | text s _ => exact all (characters s)
  | _ => exact listed rfl

end ParserAlgebra.Value
