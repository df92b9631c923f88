import ParserAlgebra.Proofs.Ends
import ParserAlgebra.Proofs.Finds
import ParserAlgebra.Proofs.Guarded

/-!
# Proofs/Finds/Positions — what is found at a position of a stream

    i                 i + |ts|
    ▾                 ▾
    passed … ▸ ts ▸ rest

A piece that a parser finds begins at some position, and the position behind it is where the parser
stops.  So a parser that is run at a position of a stream matches there and stops at another one, or
fails or raises there, and does one of these in one way only.  A whole parse begins at position 0,
and what is found there has to be all of the stream.
-/

namespace ParserAlgebra

variable {P : Type}

/-- At a position is what is in front of it and what is behind it. -/
theorem Cursor.at?_of_le {V : Type} (o : Origin) {tokens : List V} {i : Nat}
    (hi : i ≤ tokens.length) :
    at? o tokens (.int i) = .ok (.indexed o (tokens.take i).reverse (tokens.drop i) false) := by
  have found := at?_passed o (tokens.take i).reverse (tokens.drop i)
  rwa [List.reverse_reverse, List.take_append_drop, List.length_reverse,
    List.length_take_of_le hi] at found

variable [Primitive P] (rules : String → Option (Value P)) (p : Parser P) (o : Origin)
  (tokens : List (Value P))

/-- **The parser that is run at position `i` succeeds** with `v`, and the next cursor is the one at
position `j`. -/
def MatchesAt (i : Nat) (v : Value P) (j : Nat) : Prop :=
  ∃ c d, Cursor.at? o tokens (.int i) = .ok c ∧ Cursor.at? o tokens (.int j) = .ok d ∧
    Comes (fun n => p.run (quiet rules) n (.cursor c none)) (.success v (.cursor d none) none)

/-- **The parser that is run at position `i` fails.** -/
def FailsAt (i : Nat) : Prop :=
  ∃ c, Cursor.at? o tokens (.int i) = .ok c ∧
    Comes (fun n => p.run (quiet rules) n (.cursor c none)) .failure

/-- **The parser that is run at position `i` raises** an error. -/
def RaisesAt (i : Nat) (e : Error P) : Prop :=
  ∃ c, Cursor.at? o tokens (.int i) = .ok c ∧
    Raises (fun n => p.run (quiet rules) n (.cursor c none)) e

variable {rules p o tokens} {ts rest : List (Value P)} {v w : Value P} {i j k : Nat} {e : Error P}

theorem Finds.matchesAt (h : Finds rules p.body ts v rest) (ho : o.ordered = true)
    (hi : i ≤ tokens.length) (hs : tokens.drop i = ts ++ rest) :
    MatchesAt rules p o tokens i v (i + ts.length) := by
  have size : tokens.length - i = ts.length + rest.length := by
    rw [← List.length_drop, hs, List.length_append]
  have passed : tokens.take (i + ts.length) = tokens.take i ++ ts := by
    rw [List.take_add, hs, List.take_left]
  have left : tokens.drop (i + ts.length) = rest := by
    rw [← List.drop_drop, hs, List.drop_left]
  refine ⟨_, _, Cursor.at?_of_le o hi, Cursor.at?_of_le o (by omega), ?_⟩
  rw [hs, passed, left, List.reverse_append]
  exact h.comes ho

theorem Misses.failsAt (h : Misses rules p.body (tokens.drop i)) (ho : o.ordered = true)
    (hi : i ≤ tokens.length) : FailsAt rules p o tokens i :=
  ⟨_, Cursor.at?_of_le o hi, h.comes ho⟩

/-- **A mapper that raises** an error over what is found raises it at that position. -/
theorem Finds.raisesAt_map {q : Parser P} {m : Mapper P} (h : Finds rules q.body ts v rest)
    (hm : Raises (fun n => m.apply (call (quiet rules) n) v.components) e)
    (hp : p.body = .map q m) (ho : o.ordered = true) (hi : i ≤ tokens.length)
    (hs : tokens.drop i = ts ++ rest) : RaisesAt rules p o tokens i e := by
  refine ⟨_, Cursor.at?_of_le o hi, (alike_body p _ _).2 ?_⟩
  obtain ⟨k, found⟩ : Comes (fun n => call (quiet rules) n (.parser q)
      [spot o (tokens.take i).reverse (ts ++ rest)]) _ := h.comes ho
  obtain ⟨l, raised⟩ := hm
  refine ⟨max k l, fun n hn => ?_⟩
  rw [hp, hs, outcome_map_of_success (found n (by omega))]
  exact Run.outcome_bind_of_error (raised n (by omega)) _

omit [Primitive P] in
/-- A position with a cursor is one of the stream. -/
theorem le_length_of_at? {c : Cursor (Value P)} (h : Cursor.at? o tokens (.int i) = .ok c) :
    i ≤ tokens.length := by
  have inside := (Cursor.position?_at? h).2
  simpa [Number.inside] using inside

/-- At a position there is one match at most. -/
theorem MatchesAt.unique (h : MatchesAt rules p o tokens i v j)
    (h' : MatchesAt rules p o tokens i w k) : w = v ∧ k = j := by
  obtain ⟨c, d, hc, hd, h⟩ := h
  obtain ⟨c', d', hc', hd', h'⟩ := h'
  cases hc.symm.trans hc'
  cases h.unique h'
  have place := (Cursor.position?_at? hd).1.symm.trans (Cursor.position?_at? hd').1
  simp only [Option.some.injEq, Number.int.injEq, Int.natCast_inj] at place
  exact ⟨rfl, place.symm⟩

theorem MatchesAt.not_failsAt (h : MatchesAt rules p o tokens i v j) :
    ¬FailsAt rules p o tokens i := by
  rintro ⟨c', hc', h'⟩
  obtain ⟨c, d, hc, hd, h⟩ := h
  cases hc.symm.trans hc'
  cases h.unique h'

theorem RaisesAt.not_failsAt (h : RaisesAt rules p o tokens i e) :
    ¬FailsAt rules p o tokens i := by
  rintro ⟨c', hc', h'⟩
  obtain ⟨c, hc, h⟩ := h
  cases hc.symm.trans hc'
  cases Ends.unique h (ends_ok_iff.2 h')

/-! ## Whole parses -/

/-- A whole parse reports what is found in front of more. -/
theorem Finds.parse_leftover (h : Finds rules p.body ts v rest) (ho : o.ordered = true)
    (hr : rest ≠ []) : Raises (fun n => p.parse (quiet rules) n o (ts ++ rest) true)
      (Parser.leftover (.int ts.length) o (ts ++ rest)) := by
  have more : (Cursor.indexed o (ts.reverse ++ []) rest false).atEnd = false := by
    cases rest with
    | nil => contradiction
    | cons t rest => rfl
  have concluded : (p.conclude o (ts ++ rest) true
      (.success v (spot o (ts.reverse ++ []) rest) none) : Run Unit P _).outcome =
      .error (.raised (Parser.leftover (.int ts.length) o (ts ++ rest))) := by
    refine Parser.conclude_full.trans ?_
    rw [if_neg (Bool.eq_false_iff.1 more)]
    simp [Cursor.position?]
  obtain ⟨m, hm⟩ := comes_call (h o [] ho)
  refine ⟨m, fun n hn => ?_⟩
  simp only [Parser.parse_eq_bind, Parser.runFromStart, Run.own_unit]
  exact (Run.outcome_bind_of_ok (hm n hn) _).trans concluded

/-- A whole parse reports that nothing is found. -/
theorem Misses.parse (h : Misses rules p.body tokens) (ho : o.ordered = true)
    (hp : p.name.isText = true) (full : Bool) :
    Raises (fun n => p.parse (quiet rules) n o tokens full) (p.noMatch o tokens) := by
  obtain ⟨m, hm⟩ := comes_call (h o [] ho)
  refine ⟨m, fun n hn => ?_⟩
  simp only [Parser.parse_eq_bind, Parser.runFromStart, Run.own_unit]
  exact (Run.outcome_bind_of_ok (hm n hn) _).trans (Parser.conclude_falsy rfl hp)

end ParserAlgebra
