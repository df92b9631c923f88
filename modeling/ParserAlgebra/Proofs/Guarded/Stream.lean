import ParserAlgebra.Proofs.Guarded.Steps

/-!
# Proofs/Guarded/Stream — cursors that stay on a stream, and parsers that keep to it

    at position 2 of `a b c`:  d = a b ▸ c        d advances to a b c ▸, at position 3

A position of a stream may be written in ways that are no number of tokens.  A cursor is *on the
stream* if it is what is found at a whole position, and a parser keeps to the stream if all its
matches go on from such a cursor.  Single tokens do, and so do sequences of parsers that do.
-/

namespace ParserAlgebra

variable {σ P : Type}

/-! ## Whole positions -/

namespace Cursor

variable {V : Type} {o : Origin} {tokens : List V} {position : Number} {d e : Cursor V} {n : Int}

/-- What is found at a position shows that position, and can be there. -/
theorem position?_at? (h : at? o tokens position = .ok d) :
    d.position? = some position ∧ position.inside tokens.length = true := by
  unfold at? at h
  split at h
  · rename_i hin
    refine ⟨?_, hin⟩
    simp only [Number.inside, Bool.and_eq_true] at hin
    cases position with
    | int n =>
      simp only [Number.atMost_int, decide_eq_true_eq] at hin
      cases h
      simp only [position?, List.length_reverse, List.length_take, Option.some.injEq,
        Number.int.injEq]
      omega
    | truth b =>
      have hsize : (Number.int (Number.ofTruth b)).atMost (.int tokens.length) = true := hin.2
      cases h
      cases b <;> cases tokens <;> simp_all [position?, Number.ofTruth]
    | decimal d =>
      cases h
      rfl
  · contradiction

/-- What is found at a whole position is an indexed cursor. -/
theorem exists_indexed_of_whole (h : at? o tokens position = .ok d)
    (hn : position.whole? = some n) :
    ∃ passed rest b, d = indexed o passed rest b ∧ passed.reverse ++ rest = tokens := by
  obtain ⟨hshown, _⟩ := position?_at? h
  obtain ⟨htokens, horigin, _⟩ := place_at? h
  cases d with
  | indexed origin passed rest b =>
    cases horigin
    exact ⟨passed, rest, b, rfl, htokens⟩
  | linked origin tokens place => contradiction
  | fractional origin tokens place checked =>
    -- a fraction shows itself, and is no whole position
    simp only [position?, Option.ite_none_right_eq_some, Option.some.injEq] at hshown
    rw [← hshown.2] at hn
    contradiction

/-- **A whole position is how many tokens are in front of it**, and the stream has more if it is not
the end. -/
theorem place_of_whole (h : at? o tokens position = .ok d) (hn : position.whole? = some n) :
    ∃ m : Nat, n = m ∧ d.place = .int m ∧ (d.atEnd = false → m < tokens.length) := by
  obtain ⟨_, _, hplace⟩ := place_at? h
  obtain ⟨passed, rest, b, rfl, rfl⟩ := exists_indexed_of_whole h hn
  have hsame : (Number.int passed.length).same (.int n) = true := by
    cases position with
    | decimal m => contradiction
    | _ =>
      cases hn
      exact hplace
  have hlength : (passed.length : Int) = n := by simpa using hsame
  refine ⟨passed.length, hlength.symm, rfl, fun hend => ?_⟩
  have hrest : rest ≠ [] := by
    rintro rfl
    contradiction
  have hpos := List.length_pos_iff.2 hrest
  rw [List.length_append, List.length_reverse]
  omega

/-- Behind the tokens that were passed is a whole position. -/
theorem at?_passed (o : Origin) (passed rest : List V) :
    at? o (passed.reverse ++ rest) (.int passed.length) = .ok (indexed o passed rest false) := by
  have hin : (Number.int passed.length).inside (passed.reverse ++ rest).length = true := by
    simp only [Number.inside, Number.atMost_int, Bool.and_eq_true, decide_eq_true_eq,
      List.length_append, List.length_reverse]
    omega
  rw [at?, if_pos hin]
  simp

/-- **A cursor on the stream**, at a whole position. -/
def OnStream (o : Origin) (tokens : List V) (d : Cursor V) : Prop :=
  ∃ position n, at? o tokens position = .ok d ∧ position.whole? = some n

theorem onStream_indexed (o : Origin) (passed rest : List V) :
    (indexed o passed rest false).OnStream o (passed.reverse ++ rest) :=
  ⟨_, _, at?_passed o passed rest, rfl⟩

theorem OnStream.tokens_eq (h : d.OnStream o tokens) : d.tokens = tokens := by
  obtain ⟨_, _, hat, _⟩ := h
  exact (place_at? hat).1

/-- Behind a token the stream goes on. -/
theorem OnStream.advance (h : d.OnStream o tokens) (he : d.advance = .ok e) :
    e.OnStream o tokens := by
  obtain ⟨position, n, hat, hn⟩ := h
  obtain ⟨passed, rest, b, rfl, rfl⟩ := exists_indexed_of_whole hat hn
  cases rest with
  | nil => contradiction
  | cons x rest =>
    cases he
    have behind := onStream_indexed o (x :: passed) rest
    rwa [List.reverse_cons, List.append_assoc, List.singleton_append] at behind

end Cursor

/-! ## Results that stay on the stream -/

/-- **The result is no match, or a match that stays on the stream**, with a value that cannot be
unwrapped. -/
def StaysOn (o : Origin) (tokens : List (Value P)) (x : Value P) : Prop :=
  x.isTruthy = true → ∃ v d i k, x = .success v (.cursor d i) k ∧ v.unwrap = v ∧
    d.OnStream o tokens

section

variable [Supply σ] {o : Origin} {tokens : List (Value P)} {x : Value P}

/-- Numbering a result does not take it off the stream. -/
theorem StaysOn.numbered (h : StaysOn o tokens x) (s : σ) : StaysOn o tokens (x.numbered s).1 := by
  intro hx
  rw [Value.isTruthy_numbered] at hx
  obtain ⟨v, d, i, k, rfl, hv, hd⟩ := h hx
  cases k with
  | some k => exact ⟨v, d, i, some k, by rw [Value.numbered_success_some], hv, hd⟩
  | none =>
    simp only [Value.numbered_success_none, Value.numbered_cursor]
    exact ⟨_, d, _, _, rfl, Value.unwrap_numbered hv s, hd⟩

end

/-! ## Parsers that keep to the stream -/

namespace Parser

variable [Supply σ] [Primitive P] {rules : String → Option (Value P)} {fuel : Nat} {o : Origin}
  {tokens : List (Value P)} {d : Cursor (Value P)} {ps : List (Parser P)}

/-- **The parser stays on the stream** from wherever on it it starts. -/
def KeepsTo (σ : Type) [Supply σ] (rules : String → Option (Value P)) (fuel : Nat)
    (o : Origin) (tokens : List (Value P)) (p : Parser P) : Prop :=
  ∀ (d : Cursor (Value P)) i, d.OnStream o tokens →
    (p.run (quiet rules) fuel (.cursor d i) : Run σ P _).Ensures (StaysOn o tokens)

/-- One token stays on a stream of tokens that cannot be unwrapped. -/
theorem keepsTo_one (h : ∀ x ∈ tokens, x.unwrap = x) :
    (one : Parser P).KeepsTo σ rules fuel o tokens := by
  intro d i hd
  cases fuel with
  | zero => exact Run.ensures_exhaust
  | succ n =>
    have token : (Run.ofExcept (Body.takeToken (.cursor d i)) : Run σ P _).Ensures
        (StaysOn o tokens) := by
      refine (Run.ensures_ofExcept _).mono fun r hr => ?_
      obtain ⟨_, _, ⟨⟩, rfl | ⟨x, e, hx, he, rfl⟩⟩ := Body.takeToken_eq_ok hr
      · exact nofun
      · have hmem := Cursor.mem_tokens_of_current hx
        rw [hd.tokens_eq] at hmem
        exact fun _ => ⟨x, e, none, none, rfl, h x hmem, hd.advance he⟩
    exact token.bind fun x hx => Run.ensures_own fun s => hx.numbered s

/-- Members that stay on the stream do so in a row. -/
theorem ensures_rowOf (h : ∀ q ∈ ps, q.KeepsTo σ rules fuel o tokens)
    (hd : d.OnStream o tokens) (i : Identity) :
    (rowOf σ rules fuel ps (.cursor d i)).Ensures fun m => ∀ vs c, m = some (vs, c) →
      ∃ (e : Cursor (Value P)) (j : Identity), c = .cursor e j ∧ e.OnStream o tokens := by
  induction ps generalizing d i with
  | nil =>
    refine Run.ensures_pure ?_
    rintro _ _ ⟨⟩
    exact ⟨d, i, rfl, hd⟩
  | cons q ps ih =>
    obtain ⟨hq, hps⟩ := List.forall_mem_cons.1 h
    refine (hq d i hd).bind fun x hx => (Run.ensures_readMatch x).bind fun m hm => ?_
    match m with
    | none => exact Run.ensures_pure nofun
    | some (v, c) =>
      obtain ⟨k, rfl⟩ := hm v c rfl
      obtain ⟨_, e, j, _, hx, _, he⟩ := hx rfl
      cases hx
      refine (ih hps he j).bind fun m hm => ?_
      match m with
      | none => exact Run.ensures_pure nofun
      | some (vs, c) =>
        refine Run.ensures_pure ?_
        rintro _ _ ⟨⟩
        exact hm vs c rfl

/-- **A sequence of parsers that stay on the stream stays on it**, and its values cannot be
unwrapped. -/
theorem keepsTo_sequenced (h : ∀ q ∈ ps, q.KeepsTo σ rules fuel o tokens) :
    (sequenced ps).KeepsTo σ rules (fuel + 1) o tokens := by
  intro d i hd
  rw [run_sequenced]
  refine Run.Ensures.bind ?_ fun x hx => Run.ensures_own fun s => StaysOn.numbered hx s
  refine (ensures_rowOf h hd i).bind fun m hm => ?_
  match m with
  | none => exact Run.ensures_pure nofun
  | some (vs, c) =>
    obtain ⟨e, j, rfl, he⟩ := hm vs c rfl
    exact Run.ensures_pure fun _ => ⟨_, e, j, none, rfl, Value.unwrap_unwrap _, he⟩

end Parser

end ParserAlgebra
