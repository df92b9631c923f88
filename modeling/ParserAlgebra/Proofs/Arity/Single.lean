import ParserAlgebra.Catalogue.Readers
import ParserAlgebra.Proofs.Comes.General
import ParserAlgebra.Proofs.Ends.Filters
import ParserAlgebra.Proofs.Finds.General
import ParserAlgebra.Proofs.Selection

/-!
# Proofs/Arity/Single — parsers that are declared to produce one component

    one, satisfy       the token that is taken                is the value
    repeat0, repeat1   the answer of the collection           is the value

These parsers are declared to produce a single component, whatever is taken or answered.  So they do
if that is no composite: then it is the value, in a sequence it is the component in front of the
others, and a predicate is called with it alone.  A composite has as many components as it holds.
It reaches the predicate spread out, and moves what comes behind it by more than one place.
-/

namespace ParserAlgebra

open Value ParserAlgebra.Parser ParserAlgebra.Run

variable {P : Type} [Primitive P] {rules : String → Option (Value P)} {p q : Parser P}
  {f : Callable P} {c d e v w x y : Value P} {vs : List (Value P)}

/-! ## Tokens -/

/-- What is taken off a cursor is what one token is matched as. -/
theorem ends_takeToken {a : Except (Error P) (Value P)} :
    Ends (fun n => (one : Parser P).run (quiet rules) n c) a ↔ Body.takeToken c = a := by
  refine (alike_body one c a).trans ⟨fun ⟨m, hm⟩ => ?_, ?_⟩
  · have taken : (Run.ofExcept (Body.takeToken c) : Run Unit P _).outcome = _ :=
      hm m (Nat.le_refl m)
    rw [outcome_ofExcept] at taken
    exact mapError_raised_inj taken
  · rintro rfl
    exact ⟨0, fun n _ => outcome_ofExcept _⟩

/-- **One token is the token under the cursor.** -/
theorem exists_current_of_matches_one (h : Matches rules one c v d) :
    ∃ a b i, c = .cursor a i ∧ a.current = .ok v ∧ a.advance = .ok b ∧ d = .cursor b none := by
  obtain ⟨k, hk⟩ := h
  obtain ⟨a, i, rfl, heq | ⟨x, b, hx, hb, heq⟩⟩ := Body.takeToken_eq_ok (ends_takeToken.1 hk)
  · contradiction
  · cases heq
    exact ⟨a, b, i, rfl, hx, hb, rfl⟩

/-- There is a token or none. -/
theorem one_yieldsAt : (one : Parser P).YieldsAt rules (fun _ => True) c := by
  intro x hx
  obtain ⟨a, i, _, rfl | ⟨t, b, _, _, rfl⟩⟩ := Body.takeToken_eq_ok (ends_takeToken.1 hx)
  · exact .inl rfl
  · exact .inr ⟨t, _, none, rfl, trivial⟩

/-- **What a predicate makes of one token**: it is called with the token's components. -/
theorem alike_run_satisfy : Alike (fun n => (satisfy f).run (quiet rules) n c) fun n =>
    reading rules one c n >>= fun k =>
      k.elim (pure .failure) fun x => sifted rules f x.1 x.2 n := by
  simp only [satisfy, run_named]
  exact alike_run_sifted one_yieldsAt

theorem matches_satisfy_iff : Matches rules (satisfy f) c v d ↔ ∃ x b, Matches rules one c x d ∧
    Returns rules f x.components (.ok b) ∧ b.isTruthy = true ∧
      v = (tupleOf x.components).unwrap := by
  simp only [Matches, satisfy, run_named]
  exact matches_filtered_iff one_yieldsAt

/-! ## Collections -/

variable (rules) in
/-- All matches of a repetition. -/
def many (p : Parser P) (c : Value P) (n : Nat) : Run Unit P (List (Value P) × Value P) :=
  Body.runMany (fun p c => p.run (quiet rules) n c) p n c

theorem grows_many : Grows (many rules p c) :=
  fun _ _ h => Body.runMany_below (fun f args => call_of_le _ h f args) h p c

/-- Rounds that come to an end are matches one behind the other, up to where there is none. -/
theorem exists_streak_of_rounds {n k : Nat}
    (h : (Body.runMany (fun p c => p.run (quiet rules) n c) p k c : Run Unit P _).outcome =
      .ok (vs, e)) :
    ∃ steps, Streak (Matches rules p) (Declines rules p) c steps e ∧ Streak.values steps = vs := by
  induction k generalizing c vs with
  | zero => cases h
  | succ k ih =>
    rw [Body.runMany, ← bind_assoc] at h
    obtain ⟨m, hm, h⟩ := exists_outcome_of_bind h
    have read : Ends (reading rules p c) (.ok m) := grows_reading.ends hm
    cases m with
    | none =>
      cases h
      exact ⟨[], .nil (declines_iff_ends.2 read), rfl⟩
    | some x =>
      obtain ⟨v, d⟩ := x
      obtain ⟨⟨ws, e⟩, hws, h⟩ := exists_outcome_of_bind h
      cases h
      obtain ⟨steps, hs, rfl⟩ := ih hws
      exact ⟨(v, d) :: steps, .cons (matches_iff_ends.2 read) hs, rfl⟩

/-- **All matches of a repetition** are a streak. -/
theorem comes_many_iff : Comes (many rules p c) (vs, e) ↔
    ∃ steps, Streak (Matches rules p) (Declines rules p) c steps e ∧ Streak.values steps = vs := by
  constructor
  · rintro ⟨m, hm⟩
    exact exists_streak_of_rounds (hm m (Nat.le_refl m))
  · rintro ⟨steps, hs, rfl⟩
    exact hs.comes

variable (rules) in
/-- **What a collection makes of values.** -/
def collected (f : Callable P) (vs : List (Value P)) (d : Value P) (n : Nat) :
    Run Unit P (Value P) :=
  call (quiet rules) n f [.list vs none] >>= fun x => pure (.success x d none)

theorem alike_run_repeat0 : Alike (fun n => (p.repeat0 f).run (quiet rules) n c) fun n =>
    many rules p c n >>= fun m => collected rules f m.1 m.2 n := by
  refine (alike_body _ c).trans (.of_eq fun n => bind_congr fun m => ?_)
  simp only [own_unit]
  rfl

theorem alike_run_repeat1 : Alike (fun n => (p.repeat1 f).run (quiet rules) n c) fun n =>
    reading rules p c n >>= fun k => k.elim (pure .failure) fun x =>
      many rules p x.2 n >>= fun m => collected rules f (x.1 :: m.1) m.2 n := by
  refine (alike_body _ c).trans (.of_eq fun n => ?_)
  simp only [reading, bind_assoc]
  refine bind_congr fun x => bind_congr fun k => ?_
  cases k with
  | none => rfl
  | some x =>
    refine bind_congr fun m => ?_
    simp only [own_unit]
    rfl

/-- **A repetition matches with the collection's answer** to all its matches, whatever was put in
front of them. -/
theorem ends_collected (ws : List (Value P)) {k : Identity} :
    Ends (fun n => many rules p c n >>= fun m => collected rules f (ws ++ m.1) m.2 n)
      (.ok (.success v d k)) ↔
      (∃ vs, Comes (many rules p c) (vs, d) ∧ Returns rules f [.list (ws ++ vs) none] (.ok v)) ∧
        k = none := by
  refine (ends_bind grows_many).trans ⟨?_, ?_⟩
  · rintro (⟨_, _, ⟨⟩⟩ | ⟨m, hm, hr⟩)
    obtain ⟨_, _, ⟨⟩⟩ | ⟨x, hx, hr⟩ := (ends_bind (grows_call _ _)).1 hr
    cases ends_pure_iff.1 hr
    exact ⟨⟨m.1, hm, Comes.returns hx⟩, rfl⟩
  · rintro ⟨⟨vs, hm, hf⟩, rfl⟩
    exact .inr ⟨_, hm, hf.comes.bind (comes_pure _)⟩

theorem matches_repeat0_iff : Matches rules (p.repeat0 f) c v d ↔
    ∃ vs, Comes (many rules p c) (vs, d) ∧ Returns rules f [.list vs none] (.ok v) := by
  constructor
  · rintro ⟨k, hk⟩
    exact ((ends_collected []).1 ((alike_run_repeat0 (.ok _)).1 hk)).1
  · intro h
    exact ⟨none, (alike_run_repeat0 (.ok _)).2 ((ends_collected []).2 ⟨h, rfl⟩)⟩

theorem matches_repeat1_iff : Matches rules (p.repeat1 f) c v d ↔ ∃ w e vs, Matches rules p c w e ∧
    Comes (many rules p e) (vs, d) ∧ Returns rules f [.list (w :: vs) none] (.ok v) := by
  constructor
  · rintro ⟨k, hk⟩
    obtain ⟨w, e, hw, hr⟩ := ends_success_behind.1 ((alike_run_repeat1 (.ok _)).1 hk)
    obtain ⟨⟨vs, hs, hf⟩, _⟩ := (ends_collected [w]).1 hr
    exact ⟨w, e, vs, hw, hs, hf⟩
  · rintro ⟨w, e, vs, hw, hs, hf⟩
    refine ⟨none, (alike_run_repeat1 (.ok _)).2 (ends_success_behind.2 ⟨w, e, hw, ?_⟩)⟩
    exact (ends_collected [w]).2 ⟨⟨vs, hs, hf⟩, rfl⟩

/-! ## Where a value comes from -/

/-- **Parsers that are declared to produce a single component**, whatever that is. -/
inductive Single : Parser P → Prop
  | one : Single .one
  | satisfy (f : Callable P) : Single (.satisfy f)
  | repeat0 (p : Parser P) (f : Callable P) : Single (p.repeat0 f)
  | repeat1 (p : Parser P) (f : Callable P) : Single (p.repeat1 f)

variable (rules) in
/-- **What such a parser produces at a cursor, and from what**: from a token, which a predicate may
be called with, or from the answer of a collection. -/
inductive Sourced (c : Value P) : Parser P → Value P → Value P → Value P → Prop
  | one {x d : Value P} (h : Matches rules .one c x d) : Sourced c .one x x d
  | satisfy {f : Callable P} {x d b : Value P} (h : Matches rules .one c x d)
      (hf : Returns rules f x.components (.ok b)) (hb : b.isTruthy = true) :
      Sourced c (.satisfy f) x (tupleOf x.components).unwrap d
  | repeat0 {p : Parser P} {f : Callable P} {vs : List (Value P)} {x d : Value P}
      (h : Comes (many rules p c) (vs, d)) (hf : Returns rules f [.list vs none] (.ok x)) :
      Sourced c (p.repeat0 f) x x d
  | repeat1 {p : Parser P} {f : Callable P} {v : Value P} {vs : List (Value P)} {x d e : Value P}
      (h : Matches rules p c v e) (hs : Comes (many rules p e) (vs, d))
      (hf : Returns rules f [.list (v :: vs) none] (.ok x)) : Sourced c (p.repeat1 f) x x d

variable {s : Parser P}

theorem Sourced.matches (h : Sourced rules c s x v d) : Matches rules s c v d := by
  cases h with
  | one h => exact h
  | satisfy h hf hb => exact matches_satisfy_iff.2 ⟨x, _, h, hf, hb, rfl⟩
  | repeat0 h hf => exact matches_repeat0_iff.2 ⟨_, h, hf⟩
  | repeat1 h hm hf => exact matches_repeat1_iff.2 ⟨_, _, _, h, hm, hf⟩

/-- **All matches come from somewhere.** -/
theorem exists_sourced (hs : Single s) (h : Matches rules s c v d) :
    ∃ x, Sourced rules c s x v d := by
  cases hs with
  | one => exact ⟨v, .one h⟩
  | satisfy f =>
    obtain ⟨x, b, hx, hf, hb, rfl⟩ := matches_satisfy_iff.1 h
    exact ⟨x, .satisfy hx hf hb⟩
  | repeat0 p f =>
    obtain ⟨vs, hm, hf⟩ := matches_repeat0_iff.1 h
    exact ⟨v, .repeat0 hm hf⟩
  | repeat1 p f =>
    obtain ⟨w, e, vs, hw, hm, hf⟩ := matches_repeat1_iff.1 h
    exact ⟨v, .repeat1 hw hm hf⟩

theorem arity_single (hs : Single s) : s.arity = some 1 := by
  cases hs <;> rfl

/-- **What comes from no composite is that.** -/
theorem Sourced.eq_of_isComposite (h : Sourced rules c s x v d) (hx : x.isComposite = false) :
    v = x := by
  cases h with
  | satisfy =>
    rw [components_of_isComposite hx, tupleOf_singleton, unwrap_of_isComposite hx]
  | _ => rfl

/-- A predicate is called with such a token alone, and the token is produced. -/
theorem alike_run_satisfy_of_isComposite (h : Matches rules one c x d)
    (hx : x.isComposite = false) :
    Alike (fun n => (satisfy f).run (quiet rules) n c) fun n =>
      call (quiet rules) n f [x] >>= fun b =>
        pure (if b.isTruthy then .success x d none else .failure) := by
  refine alike_run_satisfy.trans ((Alike.of_ends_bind (matches_iff_ends.1 h)).trans ?_)
  simp only [Option.elim, sifted, components_of_isComposite hx, tupleOf_singleton,
    unwrap_of_isComposite hx]
  exact .refl _

/-! ## In front of another parser -/

/-- **The second component of two values** may be one of either. -/
theorem matches_second {r t : Parser P} {xs : List (Value P)} (hv : Matches rules s c v d)
    (hw : Matches rules q d w e) (hr : Parser.sequence [s, q] = .ok r)
    (ht : r.selecting [1] = .ok t) (hxs : v.components ++ w.components = x :: y :: xs) :
    Matches rules t c y.unwrap e := by
  obtain rfl := eq_sequenced_of_sequence hr
  rw [selecting_eq_map (List.cons_ne_nil 1 [])] at ht
  obtain ⟨_, rfl⟩ := map_eq_ok ht
  have both : concat [v, w] = .composite (x :: y :: xs) none := by
    rw [concat, List.flatMap_cons, List.flatMap_singleton, hxs]
    exact unwrap_composite_cons_cons x y xs none
  have pair := hv.pair hw
  rw [both] at pair
  exact matches_of_body (comes_map pair rfl (comes_pure y))

/-- **A parser that is declared to produce one component produces one unless its source is a
composite.**  Every match comes from the token under the cursor, or from the answer of a collection.
If that is no composite it is the value and its only component, and behind it in a sequence come the
components of the next parser: the second of all is the first of those.  A predicate is called with
such a token as its only argument, and the token is produced if it holds. -/
theorem single_unless_composite (rules : String → Option (Value P)) (c : Value P) :
    (∀ x d, Matches rules one c x d → ∃ a b i, c = .cursor a i ∧ a.current = .ok x ∧
      a.advance = .ok b ∧ d = .cursor b none) ∧
    (∀ s, Single s → s.arity = some 1 ∧
      ∀ v d, Matches rules s c v d ↔ ∃ x, Sourced rules c s x v d) ∧
    (∀ s x v d, Sourced rules c s x v d → x.isComposite = false → v = x ∧ v.components = [x] ∧
      ∀ q r t w e y ys, Parser.sequence [s, q] = .ok r → r.selecting [1] = .ok t →
        Matches rules q d w e → w.components = y :: ys → Matches rules t c y.unwrap e) ∧
    ∀ f x d, Matches rules one c x d → x.isComposite = false →
      Alike (fun n => (satisfy f).run (quiet rules) n c) fun n =>
        call (quiet rules) n f [x] >>= fun b =>
          pure (if b.isTruthy then .success x d none else .failure) := by
  refine ⟨fun x d => exists_current_of_matches_one, fun s hs => ⟨arity_single hs, fun v d => ?_⟩,
    fun s x v d h hx => ?_, fun f x d => alike_run_satisfy_of_isComposite⟩
  · exact ⟨exists_sourced hs, fun ⟨x, hx⟩ => hx.matches⟩
  · obtain rfl := h.eq_of_isComposite hx
    have one_component := components_of_isComposite hx
    refine ⟨rfl, one_component, fun q r t w e y ys hr ht hw hy => ?_⟩
    have all : v.components ++ w.components = v :: y :: ys := by
      rw [one_component, hy]
      rfl
    exact matches_second h.matches hw hr ht all

/-- The first letter of `ab` is one component, so the second component of both is the second
letter. -/
theorem second_of_two_letters :
    let rules : String → Option (Value Catalogue) := fun _ => none
    let o : Origin := ⟨none, true⟩
    let c : Value Catalogue := spot o [] (characters "ab")
    let d : Value Catalogue := spot o (characters "a") (characters "b")
    let e : Value Catalogue := spot o (characters "ba") []
    let pair : Parser Catalogue := sequenced [one, one]
    Single (one : Parser Catalogue) ∧ Sourced rules c one (char 'a') (char 'a') d ∧
    Parser.sequence [one, one] = .ok pair ∧ pair.selecting [1] = .ok (pair.mapped (.select [1])) ∧
    Matches rules (pair.mapped (.select [1])) c (char 'b') e ∧
    Matches rules (satisfy (.action (.equals (char 'a')))) c (char 'a') d := by
  intro rules o c d e pair
  have letter (t : Char) {behind : List (Value Catalogue)} :
      Finds rules (one : Parser Catalogue).body [char t] (char t) behind := finds_one
  have first : Matches rules one c (char 'a') d := (letter 'a').matches rfl
  have second : Matches rules one d (char 'b') e := (letter 'b').matches rfl
  have source : Sourced rules c one (char 'a') (char 'a') d := .one first
  have admitted : pair.selecting [1] = .ok (pair.mapped (.select [1])) := rfl
  obtain ⟨-, -, single, sifts⟩ := single_unless_composite rules c
  obtain ⟨-, -, behind⟩ := single _ _ _ _ source rfl
  have same : Returns rules (.action (.equals (char 'a'))) [char 'a'] (.ok (.bool true)) :=
    (comes_action (comes_pure _)).returns
  have sifted := (sifts (.action (.equals (char 'a'))) _ _ first rfl (.ok _)).2
    (same.comes.bind (comes_pure _))
  exact ⟨.one, source, rfl, admitted, behind _ _ _ _ _ _ [] rfl admitted second rfl, none, sifted⟩

/-- **A composite token is as many components as it holds.**  `one` is declared to produce a single
component and produces a token of two letters as it is.  So the second component of it and of what
comes behind it is its own second letter; and a predicate of one argument cannot be called with
it. -/
theorem second_of_composite_token :
    let rules : String → Option (Value Catalogue) := fun _ => none
    let o : Origin := ⟨none, true⟩
    let token : Value Catalogue := .composite [char 'a', char 'b'] none
    let c : Value Catalogue := spot o [] [token, char 'c']
    let pair : Parser Catalogue := sequenced [one, one]
    (one : Parser Catalogue).arity = some 1 ∧
    Matches rules one c token (spot o [token] [char 'c']) ∧ token.components.length = 2 ∧
    Parser.sequence [one, one] = .ok pair ∧ pair.selecting [1] = .ok (pair.mapped (.select [1])) ∧
    Matches rules one (spot o [token] [char 'c']) (char 'c') (spot o [char 'c', token] []) ∧
    Matches rules (pair.mapped (.select [1])) c (char 'b') (spot o [char 'c', token] []) ∧
    Raises (fun k => (satisfy (.action (.equals token))).run (quiet rules) k c) .mistyped := by
  intro rules o token c pair
  have admitted : pair.selecting [1] = .ok (pair.mapped (.select [1])) := rfl
  have found (t : Value Catalogue) {behind : List (Value Catalogue)} :
      Finds rules (one : Parser Catalogue).body [t] t behind := finds_one
  have first : Matches rules one c token (spot o [token] [char 'c']) := (found token).matches rfl
  have second : Matches rules one (spot o [token] [char 'c']) (char 'c')
      (spot o [char 'c', token] []) := (found (char 'c')).matches rfl
  refine ⟨rfl, first, rfl, rfl, admitted, second, ?_, ?_⟩
  · have all : token.components ++ (char 'c').components = [char 'a', char 'b', char 'c'] := rfl
    exact matches_second first second rfl admitted all
  · have called : Raises (fun k => call (quiet rules) k (.action (.equals token)) token.components)
        .mistyped := (alike_action _ _ _).2 ⟨0, fun _ _ => rfl⟩
    refine (alike_run_satisfy _).2 ((Alike.of_ends_bind (matches_iff_ends.1 first) _).2 ?_)
    exact (ends_bind (grows_call _ _)).2 (.inl ⟨_, called, rfl⟩)

end ParserAlgebra
