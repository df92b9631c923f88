import ParserAlgebra.Identity
import ParserAlgebra.Number

/-!
# Cursor — an immutable position in a stream of tokens

There are two ways to hold a stream, and one way to miss its tokens.

* An *indexed* cursor is what it has passed and what is left.  Keeping both sides makes it a
  position *inside* its stream — the bound `0 ≤ position ≤ size` is not a condition but the shape of
  the type — and makes plain that `advance` moves one token across and touches nothing else
  (`tokens_advance`).
* A *linked* cursor keeps the whole stream and a place nobody checks.  It goes on past the end, and
  before the start it counts from the end, as an index does.
* A *fractional* cursor is at a place that was written as a decimal fraction.  It moves on like the
  others and knows where the end is, but a fraction is no index, so it never reads a token.

Parsers know neither: they read `atEnd`, `current` and `advance`.  What these show is `remaining`,
the tokens that are left to read.
-/

namespace ParserAlgebra

/-- **Where tokens come from**: which stream it is — two streams of equal tokens are still two —
and whether it is in any order.  One that is not has a size, but its tokens cannot be read one by
one. -/
structure Origin where
  identity : Identity
  ordered : Bool
deriving DecidableEq

/-- What a cursor refuses to do. -/
inductive CursorFault where
  | outside (position : Number)
  | noCurrent
  | pastEnd
  /-- The stream is in no order, or the place is no index. -/
  | unindexed
  /-- A linked cursor is where its stream has no token. -/
  | noToken
deriving DecidableEq

namespace CursorFault

/-- The text of a fault, for those a cursor itself complains about. -/
def message? : CursorFault → Option String
  | .outside position =>
    some ("Position " ++ position.render ++ " is outside of the token stream.")
  | .noCurrent => some "There is no current token at the end of the input."
  | .pastEnd => some "Can't advance past the end of the input."
  | .unindexed => none
  | .noToken => none

end CursorFault

/-- **A position in a stream.** -/
inductive Cursor (V : Type) where
  /-- The tokens passed, nearest first, and the tokens left.  `asTruth` tells that the position was
  written as a truth value. -/
  | indexed (origin : Origin) (passed rest : List V) (asTruth : Bool)
  /-- All tokens, and a place among them or anywhere else. -/
  | linked (origin : Origin) (tokens : List V) (place : Int)
  /-- All tokens, and a place written as a fraction.  A `checked` one has a position and stays
  inside its stream, as an indexed cursor does; the others do as linked ones. -/
  | fractional (origin : Origin) (tokens : List V) (place : Decimal) (checked : Bool)

namespace Cursor

variable {V : Type}

def origin : Cursor V → Origin
  | indexed origin _ _ _ => origin
  | linked origin _ _ => origin
  | fractional origin _ _ _ => origin

/-- The whole stream, in order. -/
def tokens : Cursor V → List V
  | indexed _ passed rest _ => passed.reverse ++ rest
  | linked _ tokens _ => tokens
  | fractional _ tokens _ _ => tokens

/-- How many tokens the stream has. -/
def size : Cursor V → Nat
  | indexed _ passed rest _ => passed.length + rest.length
  | linked _ tokens _ => tokens.length
  | fractional _ tokens _ _ => tokens.length

/-- How far from the start of the stream the cursor is. -/
def place : Cursor V → Number
  | indexed _ passed _ _ => .int passed.length
  | linked _ _ place => .int place
  | fractional _ _ place _ => .decimal place

/-- Whether the cursor has a position it checks, and not just a place. -/
def isChecked : Cursor V → Bool
  | indexed _ _ _ _ => true
  | linked _ _ _ => false
  | fractional _ _ _ checked => checked

/-- The position as the cursor shows it.  A linked cursor shows none. -/
def position? : Cursor V → Option Number
  | indexed _ passed _ true => some (.truth (!passed.isEmpty))
  | indexed _ passed _ false => some (.int passed.length)
  | linked _ _ _ => none
  | fractional _ _ place checked => if checked then some (.decimal place) else none

/-- How many steps it is to the end.  Past the end there are fewer than none. -/
def left (c : Cursor V) : Number := (Number.int c.size).add c.place.neg

/-- As many steps as it takes to come to the end, or to a token that cannot be read. -/
def stepsLeft : Cursor V → Nat
  | indexed _ _ rest _ => rest.length
  | linked _ tokens place => (tokens.length - place).toNat
  | fractional _ _ _ _ => 1

def atEnd : Cursor V → Bool
  | indexed _ _ rest _ => rest.isEmpty
  | linked _ tokens place => (tokens.length : Int) ≤ place
  | fractional _ tokens place _ => (Number.int tokens.length).atMost (.decimal place)

/-- The token at an index, which counts from the end if it is negative. -/
def tokenAt? (tokens : List V) (i : Int) : Option V :=
  if 0 ≤ i then tokens[i.toNat]?
  else if 0 ≤ tokens.length + i then tokens[(tokens.length + i).toNat]?
  else none

/-- A token of a stream, if the stream is in order. -/
def reading (origin : Origin) (x : V) : Except CursorFault V :=
  if origin.ordered then .ok x else .error .unindexed

/-- The token under the cursor. -/
def current : Cursor V → Except CursorFault V
  | indexed origin _ (x :: _) _ => reading origin x
  | indexed _ _ [] _ => .error .noCurrent
  | linked origin tokens place =>
    if origin.ordered then
      match tokenAt? tokens place with
      | some x => .ok x
      | none => .error .noToken
    else .error .unindexed
  | c@(fractional _ _ _ checked) =>
    .error (if checked && c.atEnd then .noCurrent else .unindexed)

/-- An indexed cursor at the start of a stream. -/
def start (origin : Origin) (tokens : List V) : Cursor V := indexed origin [] tokens false

/-- A checked cursor at a position, which must lie inside the stream. -/
def at? (origin : Origin) (tokens : List V) (position : Number) : Except CursorFault (Cursor V) :=
  if position.inside tokens.length then
    match position with
    | .int n =>
      .ok (indexed origin (tokens.take n.toNat).reverse (tokens.drop n.toNat) false)
    | .truth b =>
      let n := (Number.ofTruth b).toNat
      .ok (indexed origin (tokens.take n).reverse (tokens.drop n) true)
    | .decimal d => .ok (fractional origin tokens d true)
  else .error (.outside position)

/-- A linked cursor at any place. -/
def linkedAt (origin : Origin) (tokens : List V) : Number → Cursor V
  | .int n => linked origin tokens n
  | .truth b => linked origin tokens (Number.ofTruth b)
  | .decimal d => fractional origin tokens d false

/-- The cursor one token further. -/
def advance : Cursor V → Except CursorFault (Cursor V)
  | indexed origin passed (x :: rest) _ => .ok (indexed origin (x :: passed) rest false)
  | indexed _ _ [] _ => .error .pastEnd
  | linked origin tokens place => .ok (linked origin tokens (place + 1))
  | c@(fractional origin tokens place checked) =>
    let next := place.add (.ofInt 1)
    if checked then
      if c.atEnd then .error .pastEnd else at? origin tokens (.decimal next)
    else .ok (fractional origin tokens next false)

/-- Two cursors are the same when they are held in one way, on one stream, at one place. -/
def same (c d : Cursor V) : Bool :=
  c.isChecked == d.isChecked && sameIdentity c.origin.identity d.origin.identity &&
    c.place.same d.place

/-- The tokens and the cursor behind them after `n` steps, or fewer if the end comes first. -/
def readUpTo : Nat → Cursor V → Except CursorFault (List V × Cursor V)
  | 0, c => .ok ([], c)
  | n + 1, c =>
    if c.atEnd then .ok ([], c)
    else do
      let x ← c.current
      let (xs, d) ← readUpTo n (← c.advance)
      return (x :: xs, d)

/-! ## What is left to read -/

/-- **The tokens that are left.**  From before the start, a linked cursor reads the last tokens
first and then the whole stream. -/
def remaining : Cursor V → List V
  | indexed _ _ rest _ => rest
  | linked _ tokens place =>
    if 0 ≤ place then tokens.drop place.toNat
    else tokens.drop (tokens.length + place).toNat ++ tokens
  | fractional _ _ _ _ => []

/-- **Nothing keeps the cursor from reading** what is left: the stream is in order, and the place is
an index, and not further before the start than the stream is long. -/
def Readable : Cursor V → Prop
  | indexed origin _ _ _ => origin.ordered = true
  | linked origin tokens place => origin.ordered = true ∧ 0 ≤ tokens.length + place
  | fractional _ _ _ _ => False

theorem atEnd_eq_isEmpty {c : Cursor V} (h : c.Readable) : c.atEnd = c.remaining.isEmpty := by
  cases c with
  | indexed origin passed rest asTruth => rfl
  | linked origin tokens place =>
    obtain ⟨_, h⟩ := h
    simp only [atEnd, remaining]
    split
    · rename_i hp
      rw [Bool.eq_iff_iff]
      simp [List.isEmpty_iff, List.drop_eq_nil_iff]
      omega
    · rename_i hp
      have hne : tokens ≠ [] := by
        rintro rfl
        simp at h
        omega
      rw [Bool.eq_iff_iff]
      simp [hne]
      omega
  | fractional origin tokens place checked => exact h.elim

/-- The current token is the first that is left. -/
theorem current_eq_head {c : Cursor V} {x : V} {xs : List V} (h : c.Readable)
    (hc : c.remaining = x :: xs) : c.current = .ok x := by
  cases c with
  | indexed origin passed rest asTruth =>
    simp only [Readable, remaining] at h hc
    subst hc
    simp [current, reading, h]
  | linked origin tokens place =>
    obtain ⟨ho, h⟩ := h
    have key : tokenAt? tokens place = some x := by
      unfold tokenAt?
      simp only [remaining] at hc
      split at hc
      · rename_i hp
        rw [if_pos hp, ← List.head?_drop, hc]
        rfl
      · rename_i hp
        rw [if_neg hp, if_pos h]
        have hlt : (tokens.length + place).toNat < tokens.length := by omega
        rw [List.drop_eq_getElem_cons hlt, List.cons_append] at hc
        rw [List.getElem?_eq_getElem hlt, (List.cons.inj hc).1]
    simp [current, ho, key]
  | fractional origin tokens place checked => exact h.elim

/-- A step forward takes one token off what is left, and stays in the stream. -/
theorem advance_eq_tail {c : Cursor V} {x : V} {xs : List V} (h : c.Readable)
    (hc : c.remaining = x :: xs) :
    ∃ d, c.advance = .ok d ∧ d.remaining = xs ∧ d.Readable ∧ d.origin = c.origin := by
  cases c with
  | indexed origin passed rest asTruth =>
    simp only [Readable, remaining] at h hc
    subst hc
    exact ⟨_, rfl, rfl, h, rfl⟩
  | linked origin tokens place =>
    obtain ⟨ho, h⟩ := h
    refine ⟨_, rfl, ?_, ⟨ho, by omega⟩, rfl⟩
    simp only [remaining] at hc ⊢
    split at hc
    · rename_i hp
      rw [if_pos (by omega), show (place + 1).toNat = place.toNat + 1 by omega, ← List.tail_drop,
        hc]
      rfl
    · rename_i hp
      have hlt : (tokens.length + place).toNat < tokens.length := by omega
      rw [List.drop_eq_getElem_cons hlt, List.cons_append] at hc
      rw [← (List.cons.inj hc).2]
      split
      · have : (tokens.length + place).toNat + 1 = tokens.length := by omega
        have hz : (place + 1).toNat = 0 := by omega
        rw [this, hz]
        simp
      · rw [show (tokens.length + (place + 1)).toNat = (tokens.length + place).toNat + 1 by omega]
  | fractional origin tokens place checked => exact h.elim

/-! ## The stream stays, the position moves -/

/-- An indexed cursor is inside its stream. -/
theorem inside_size (origin : Origin) (passed rest : List V) (asTruth : Bool) :
    (indexed origin passed rest asTruth).place.inside
      (indexed origin passed rest asTruth).size = true := by
  simp only [place, size, Number.inside, Number.atMost_int, Bool.and_eq_true, decide_eq_true_eq]
  omega

/-- The token under the cursor is one of the stream. -/
theorem mem_tokens_of_current {c : Cursor V} {x : V} (h : c.current = .ok x) : x ∈ c.tokens := by
  cases c with
  | indexed origin passed rest asTruth =>
    cases rest with
    | nil => contradiction
    | cons y rest =>
      simp only [current, reading] at h
      split at h
      · cases h
        simp [tokens]
      · contradiction
  | linked origin tokens place =>
    have found {i : Int} {y : V} (hy : tokenAt? tokens i = some y) : y ∈ tokens := by
      unfold tokenAt? at hy
      split at hy
      · exact List.mem_of_getElem? hy
      · split at hy
        · exact List.mem_of_getElem? hy
        · contradiction
    simp only [current] at h
    split at h
    · split at h
      · rename_i y hy
        cases h
        exact found hy
      · contradiction
    · contradiction
  | fractional origin tokens place checked => contradiction

/-- What is found at a position has that position. -/
theorem place_at? {origin : Origin} {tokens : List V} {position : Number} {c : Cursor V}
    (h : at? origin tokens position = .ok c) :
    c.tokens = tokens ∧ c.origin = origin ∧ c.place.same position = true := by
  unfold at? at h
  split at h
  · rename_i hin
    simp only [Number.inside, Bool.and_eq_true] at hin
    cases position with
    | int n =>
      simp only [Number.atMost_int, decide_eq_true_eq] at hin
      cases h
      simp only [Cursor.tokens, Cursor.origin, place, List.reverse_reverse, List.take_append_drop,
        List.length_reverse, List.length_take, Number.same_int, beq_iff_eq, true_and]
      omega
    | truth b =>
      have hn : (Number.ofTruth b).toNat ≤ tokens.length := by
        have : (Number.truth b).atMost (.int tokens.length) =
          (Number.int (Number.ofTruth b)).atMost (.int tokens.length) := rfl
        rw [this, Number.atMost_int, decide_eq_true_eq] at hin
        omega
      cases h
      have hs : ∀ i, (Number.int i).same (.truth b) = (i == Number.ofTruth b) :=
        fun i => Number.same_int i _
      simp only [Cursor.tokens, Cursor.origin, place, List.reverse_reverse, List.take_append_drop,
        List.length_reverse, List.length_take, hs, beq_iff_eq, true_and]
      cases b <;> simp [Number.ofTruth] at hn ⊢
      omega
    | decimal d =>
      cases h
      exact ⟨rfl, rfl, Decimal.same_self d⟩
  · contradiction

/-- A step forward moves the current token behind the cursor and keeps the stream. -/
theorem tokens_advance {c d : Cursor V} (h : c.advance = .ok d) :
    d.tokens = c.tokens ∧ d.origin = c.origin := by
  cases c with
  | indexed origin passed rest asTruth =>
    cases rest with
    | nil => contradiction
    | cons x rest =>
      cases h
      simp [tokens, Cursor.origin]
  | linked origin tokens place =>
    cases h
    simp [Cursor.tokens, Cursor.origin]
  | fractional origin tokens place checked =>
    simp only [advance] at h
    split at h
    · split at h
      · contradiction
      · exact ⟨(place_at? h).1, (place_at? h).2.1⟩
    · cases h
      simp [Cursor.tokens, Cursor.origin]

/-- A step forward from a place that is an index is one place further. -/
theorem place_advance {c d : Cursor V} (h : c.advance = .ok d) {i : Int} (hi : c.place = .int i) :
    d.place = .int (i + 1) := by
  cases c with
  | indexed origin passed rest asTruth =>
    cases rest with
    | nil => contradiction
    | cons x rest =>
      cases h
      cases hi
      rfl
  | linked origin tokens place =>
    cases h
    cases hi
    rfl
  | fractional origin tokens place checked => contradiction

end Cursor

end ParserAlgebra
