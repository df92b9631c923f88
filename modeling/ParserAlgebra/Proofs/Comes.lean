import ParserAlgebra.Proofs.Derivation.Completeness
import ParserAlgebra.Proofs.Streak

/-!
# Proofs/Comes — what a run comes to, given enough fuel

    p matches at c:  v, going on at d            p declines at c

A run comes to what it returns from some fuel on, and there is no more than one such thing.  For a
parser and a cursor that is a match or no match.  What parsers made of parsers come to is put
together from there: members of a sequence in a row (`Row`), and rounds of a repetition for as long
as the parser matches (`Streak`).

Here a cursor is any value at all.  Nothing is asked of the stream that it is on, or of what a match
has to do with the tokens.
-/

namespace ParserAlgebra

variable {P α β : Type}

/-! ## From some fuel on -/

/-- **From some fuel on, the run returns `a`.** -/
def Comes (r : Nat → Run Unit P α) (a : α) : Prop := ∃ m, ∀ n ≥ m, (r n).outcome = .ok a

theorem comes_pure (a : α) : Comes (fun _ => (pure a : Run Unit P α)) a := ⟨0, fun _ _ => rfl⟩

/-- A run comes to one thing only. -/
theorem Comes.unique {r : Nat → Run Unit P α} {a b : α} (h : Comes r a) (k : Comes r b) :
    b = a := by
  obtain ⟨m, hm⟩ := h
  obtain ⟨l, hl⟩ := k
  exact Except.ok.inj ((hl (max m l) (by omega)).symm.trans (hm (max m l) (by omega)))

theorem Comes.bind {r : Nat → Run Unit P α} {f : Nat → α → Run Unit P β} {a : α} {b : β}
    (h : Comes r a) (hf : Comes (fun n => f n a) b) : Comes (fun n => r n >>= f n) b := by
  obtain ⟨m, hm⟩ := h
  obtain ⟨k, hk⟩ := hf
  refine ⟨max m k, fun n hn => ?_⟩
  rw [Run.outcome_bind_of_ok (hm n (by omega)), hk n (by omega)]

theorem comes_own (v : Value P) : Comes (fun _ => Run.own v) v := by
  simp only [Run.own_unit]
  exact comes_pure v

theorem comes_ownAll (vs : List (Value P)) : Comes (fun _ => Run.ownAll vs) vs := by
  simp only [Run.ownAll_unit]
  exact comes_pure vs

/-- What holds with one unit less holds from some fuel on. -/
theorem Comes.later {r : Nat → Run Unit P α} {a : α} (h : Comes (fun n => r (n + 1)) a) :
    Comes r a := by
  obtain ⟨m, hm⟩ := h
  refine ⟨m + 1, fun n hn => ?_⟩
  obtain ⟨n, rfl⟩ : ∃ k, n = k + 1 := ⟨n - 1, by omega⟩
  exact hm n (by omega)

/-- What is false is read as no match. -/
theorem Value.readMatch_falsy {σ : Type} {x : Value P} (hx : x.isTruthy = false) :
    (x.readMatch : Run σ P _) = pure none := by
  rw [Value.readMatch, if_neg (by simp [hx])]

section

variable {r : Nat → Run Unit P (Value P)} {f : Nat → Option (Value P × Value P) → Run Unit P α}
  {a : α}

theorem Comes.readMatch {v n : Value P} {i : Identity} (h : Comes r (.success v n i))
    (hf : Comes (fun k => f k (some (v, n))) a) :
    Comes (fun k => r k >>= fun x => x.readMatch >>= f k) a := h.bind hf

theorem Comes.readMatch_falsy {x : Value P} (h : Comes r x) (hx : x.isTruthy = false)
    (hf : Comes (fun k => f k none) a) :
    Comes (fun k => r k >>= fun x => x.readMatch >>= f k) a := by
  refine h.bind ?_
  simp only [Value.readMatch_falsy hx]
  exact (comes_pure none).bind hf

end

variable [Primitive P] {rules : String → Option (Value P)}

theorem Returns.comes {f : Callable P} {args : List (Value P)} {x : Value P}
    (h : Returns rules f args (.ok x)) : Comes (fun n => call (quiet rules) n f args) x :=
  h.outcome

theorem Comes.returns {f : Callable P} {args : List (Value P)} {x : Value P}
    (h : Comes (fun n => call (quiet rules) n f args) x) : Returns rules f args (.ok x) := by
  obtain ⟨m, hm⟩ := h
  exact ⟨m, hm m (Nat.le_refl m)⟩

/-- A call comes to what its body comes to. -/
theorem comes_call {p : Parser P} {x y : Value P}
    (h : Comes (fun n => p.body.apply (call (quiet rules) n) n x) y) :
    Comes (fun n => call (quiet rules) n (.parser p) [x]) y := by
  refine Comes.later ?_
  simp only [call_body]
  exact h

theorem comes_action {a : Action P} {args : List (Value P)} {x : Value P}
    (h : Comes (fun n => a.apply (call (quiet rules) n) (quiet rules) args) x) :
    Comes (fun n => call (quiet rules) n (.action a) args) x := by
  refine Comes.later ?_
  simp only [call, Run.own_unit, bind_pure]
  exact h

/-! ## Matching and declining -/

section

variable (rules)

/-- **The parser matches at `c`** and produces `v`; the cursor behind that is `d`. -/
def Matches (p : Parser P) (c v d : Value P) : Prop :=
  ∃ k, Comes (fun n => p.run (quiet rules) n c) (.success v d k)

/-- **The parser declines at `c`**: its result is no match. -/
def Declines (p : Parser P) (c : Value P) : Prop :=
  ∃ x, x.isTruthy = false ∧ Comes (fun n => p.run (quiet rules) n c) x

/-- **Parsers in a row match in a row**: each from where the one before it stopped. -/
inductive Row : List (Parser P) → Value P → List (Value P) → Value P → Prop
  | nil {c} : Row [] c [] c
  | cons {p ps c v d vs e} (h : Matches rules p c v d) (hs : Row ps d vs e) :
    Row (p :: ps) c (v :: vs) e

end

section

variable {p q : Parser P} {c d e v w : Value P}

/-- A parser matches in one way only. -/
theorem Matches.unique (h : Matches rules p c v d) (k : Matches rules p c w e) :
    w = v ∧ e = d := by
  obtain ⟨_, h⟩ := h
  obtain ⟨_, k⟩ := k
  cases h.unique k
  exact ⟨rfl, rfl⟩

/-- A parser that matches does not decline. -/
theorem Matches.not_declines (h : Matches rules p c v d) : ¬Declines rules p c := by
  rintro ⟨x, hx, k⟩
  obtain ⟨_, h⟩ := h
  cases h.unique k
  contradiction

theorem matches_of_body
    (h : Comes (fun n => p.body.apply (call (quiet rules) n) n c) (.success v d none)) :
    Matches rules p c v d := ⟨none, comes_call h⟩

theorem declines_of_body
    (h : Comes (fun n => p.body.apply (call (quiet rules) n) n c) .failure) :
    Declines rules p c := ⟨.failure, rfl, comes_call h⟩

/-! ## One token -/

/-- A token that can be read is matched. -/
theorem matches_one {a b : Cursor (Value P)} {x : Value P} (h : a.atEnd = false)
    (hx : a.current = .ok x) (hb : a.advance = .ok b) (i : Identity) :
    Matches rules .one (.cursor a i) x (.cursor b none) := by
  refine matches_of_body ?_
  simp only [Parser.one, Body.apply, Body.takeToken_of_current h hx hb i]
  exact comes_pure _

theorem declines_one {a : Cursor (Value P)} (h : a.atEnd = true) (i : Identity) :
    Declines rules .one (.cursor a i) := by
  refine declines_of_body ?_
  simp only [Parser.one, Body.apply, Body.takeToken_of_atEnd h i]
  exact comes_pure _

/-! ## Options -/

theorem comes_optional (h : Matches rules p c v d) :
    Comes (fun n => (Body.optional p).apply (call (quiet rules) n) n c)
      (.success (.present v none) d none) := by
  obtain ⟨_, h⟩ := h
  exact h.readMatch (comes_pure _)

theorem comes_absent (h : Declines rules p c) :
    Comes (fun n => (Body.optional p).apply (call (quiet rules) n) n c)
      (.success .absent c none) := by
  obtain ⟨x, hx, h⟩ := h
  exact h.readMatch_falsy hx (comes_pure _)

/-! ## Sequences -/

theorem Row.comes {ps : List (Parser P)} {vs : List (Value P)} (h : Row rules ps c vs e) :
    Comes (fun n => Body.runAll (fun p c => call (quiet rules) n (.parser p) [c]) ps c)
      (some (vs, e)) := by
  induction h with
  | nil => exact comes_pure _
  | cons h _ ih =>
    obtain ⟨_, h⟩ := h
    exact h.readMatch (ih.bind (comes_pure _))

/-- A row comes to nothing where one of its parsers declines. -/
theorem Row.comes_none {ps qs : List (Parser P)} {vs : List (Value P)} (h : Row rules ps c vs d)
    (k : Declines rules q d) :
    Comes (fun n => Body.runAll (fun p c => call (quiet rules) n (.parser p) [c]) (ps ++ q :: qs) c)
      none := by
  induction h with
  | nil =>
    obtain ⟨x, hx, k⟩ := k
    exact k.readMatch_falsy hx (comes_pure none)
  | cons h _ ih =>
    obtain ⟨_, h⟩ := h
    exact h.readMatch ((ih k).bind (comes_pure none))

/-- **A sequence matches with the components of all its members' values.** -/
theorem comes_sequence {ps : List (Parser P)} {vs : List (Value P)} (h : Row rules ps c vs e) :
    Comes (fun n => (Body.sequence ps).apply (call (quiet rules) n) n c)
      (.success (Value.concat vs) e none) := h.comes.bind (comes_pure _)

/-- **A sequence fails where one of its members declines.** -/
theorem comes_sequence_failure {ps qs : List (Parser P)} {vs : List (Value P)}
    (h : Row rules ps c vs d) (k : Declines rules q d) :
    Comes (fun n => (Body.sequence (ps ++ q :: qs)).apply (call (quiet rules) n) n c) .failure :=
  (h.comes_none k).bind (comes_pure _)

/-- A sequence of two fails where its second parser declines. -/
theorem comes_pair_failure (h : Matches rules p c v d) (k : Declines rules q d) :
    Comes (fun n => (Body.sequence [p, q]).apply (call (quiet rules) n) n c) .failure := by
  have row : Row rules [p] c [v] d := .cons h .nil
  exact comes_sequence_failure row k

/-! ## Repetitions -/

/-- **A repetition goes on for as long as its parser matches**, and makes one call more: with any
number of rounds that exceeds the number of matches it comes to all of them, and with fewer it does
not end. -/
theorem Streak.rounds {vs : List (Value P × Value P)}
    (h : Streak (Matches rules p) (Declines rules p) c vs e) : ∃ m, ∀ n ≥ m, ∀ k,
      (Body.runMany (fun p c => call (quiet rules) n (.parser p) [c]) p k c :
        Run Unit P _).outcome =
        if vs.length < k then .ok (values vs, e) else .error .exhausted := by
  induction h with
  | nil h =>
    obtain ⟨x, hx, m, hm⟩ := h
    refine ⟨m, fun n hn k => ?_⟩
    match k with
    | 0 => rfl
    | k + 1 =>
      have first : (call (quiet rules) n (.parser p) [_]).outcome = .ok x := hm n hn
      rw [Body.runMany, Run.outcome_bind_of_ok first, Value.readMatch_falsy hx]
      exact (if_pos (Nat.succ_pos k)).symm
  | @cons c v d vs e h _ ih =>
    obtain ⟨_, m, hm⟩ := h
    obtain ⟨l, hl⟩ := ih
    refine ⟨max m l, fun n hn k => ?_⟩
    match k with
    | 0 => rfl
    | k + 1 =>
      have first : (call (quiet rules) n (.parser p) [c]).outcome = _ := hm n (by omega)
      have rest := hl n (by omega) k
      rw [Body.runMany, outcome_readMatch_of_success first]
      by_cases hk : vs.length < k
      · rw [if_pos hk] at rest
        rw [if_pos (by simpa using hk)]
        exact Run.outcome_bind_of_ok rest _
      · rw [if_neg hk] at rest
        rw [if_neg (by simpa using hk)]
        exact Run.outcome_bind_of_error rest _

theorem Streak.comes {vs : List (Value P × Value P)}
    (h : Streak (Matches rules p) (Declines rules p) c vs e) :
    Comes (fun n => Body.runMany (fun p c => call (quiet rules) n (.parser p) [c]) p n c)
      (values vs, e) := by
  obtain ⟨m, hm⟩ := h.rounds
  refine ⟨max m (vs.length + 1), fun n hn => ?_⟩
  rw [hm n (by omega) n, if_pos (by omega)]

/-- **A repetition collects the values of all matches.** -/
theorem comes_repeat0 {f : Callable P} {x : Value P} {vs : List (Value P × Value P)}
    (h : Streak (Matches rules p) (Declines rules p) c vs e)
    (hf : Returns rules f [.list (Streak.values vs) none] (.ok x)) :
    Comes (fun n => (Body.repeat0 p f).apply (call (quiet rules) n) n c) (.success x e none) :=
  h.comes.bind ((comes_own _).bind (hf.comes.bind (comes_pure _)))

/-- A repetition that starts with a match. -/
theorem comes_repeat1 {f : Callable P} {x : Value P} {vs : List (Value P × Value P)}
    (h : Matches rules p c v d) (hs : Streak (Matches rules p) (Declines rules p) d vs e)
    (hf : Returns rules f [.list (v :: Streak.values vs) none] (.ok x)) :
    Comes (fun n => (Body.repeat1 p f).apply (call (quiet rules) n) n c) (.success x e none) := by
  obtain ⟨_, h⟩ := h
  exact h.readMatch (hs.comes.bind ((comes_own _).bind (hf.comes.bind (comes_pure _))))

/-- A repetition that has to match once. -/
theorem comes_repeat1_failure {f : Callable P} (h : Declines rules p c) :
    Comes (fun n => (Body.repeat1 p f).apply (call (quiet rules) n) n c) .failure := by
  obtain ⟨x, hx, h⟩ := h
  exact h.readMatch_falsy hx (comes_pure _)

/-! ## Mappers -/

/-- A mapper that cannot refuse hands on what it makes of the components. -/
theorem comes_map {m : Mapper P} {x : Value P} (h : Matches rules p c v d)
    (hm : m.isFallible = false)
    (hx : Comes (fun n => m.apply (call (quiet rules) n) v.components) x) :
    Comes (fun n => (Body.map p m).apply (call (quiet rules) n) n c)
      (.success x.unwrap d none) := by
  obtain ⟨_, h⟩ := h
  refine h.bind ((comes_pure v).bind (hx.bind ?_))
  simp only [hm]
  exact comes_pure _

theorem comes_map_failure {m : Mapper P} (h : Declines rules p c) :
    Comes (fun n => (Body.map p m).apply (call (quiet rules) n) n c) .failure := by
  obtain ⟨x, hx, h⟩ := h
  refine h.bind ?_
  simp only [hx]
  exact comes_pure _

section

variable {f : Callable P} {b : Value P}

/-- What a filter answers. -/
theorem comes_filter {xs : List (Value P)} (hf : Returns rules f xs (.ok b)) :
    Comes (fun n => (Mapper.filter f).apply (call (quiet rules) n) xs)
      (if b.isTruthy then .present (Value.tupleOf xs) none else .absent) :=
  hf.comes.bind (comes_pure _)

/-- A filter passes on what its predicate holds for. -/
theorem comes_filtered (h : Matches rules p c v d) (hf : Returns rules f v.components (.ok b))
    (hb : b.isTruthy = true) :
    Comes (fun n => (Body.map p (.filter f)).apply (call (quiet rules) n) n c)
      (.success (Value.tupleOf v.components).unwrap d none) := by
  obtain ⟨_, h⟩ := h
  refine h.bind ((comes_pure v).bind ((comes_filter hf).bind ?_))
  rw [if_pos hb]
  exact comes_pure _

/-- What its predicate does not hold for is no match. -/
theorem comes_filtered_failure (h : Matches rules p c v d)
    (hf : Returns rules f v.components (.ok b)) (hb : b.isTruthy = false) :
    Comes (fun n => (Body.map p (.filter f)).apply (call (quiet rules) n) n c) .failure := by
  obtain ⟨_, h⟩ := h
  refine h.bind ((comes_pure v).bind ((comes_filter hf).bind ?_))
  simp only [if_neg (Bool.eq_false_iff.1 hb)]
  exact comes_pure _

end

end

end ParserAlgebra
