import ParserAlgebra.Catalogue.Readers
import ParserAlgebra.Proofs.Arity.Single
import ParserAlgebra.Proofs.Ends.Choices
import ParserAlgebra.Proofs.Operators.Regions

/-!
# Proofs/OneOf — one of some tokens, and the choice of these tokens

    tokenIn [x₁, …, xₙ]          takes u  where some xᵢ is u itself, or equals it
    token x₁ | … | token xₙ      takes u  where u equals some xᵢ

On the left a token is read once and looked up among the options, on the right it is read again for
each option that is tried.  Either way the token is produced, and not the option.  A composite token
is spread out: if it holds a single component, that is compared and produced, and if it does not,
both sides raise at the first comparison.

So the two end alike wherever looking the token up comes to the same as comparing it
(`Value.isIn`, `Value.equalsSome`).  It does not for what is no number: that is one of the options
if it is the very object listed there, and equals none.  Nor does it where it matters which of two
values is asked: on the left it is the option, and on the right the token.
-/

namespace ParserAlgebra

open Value ParserAlgebra.Parser ParserAlgebra.Run

variable {P : Type}

/-! ## Questions about a single component -/

/-- **A question about a single component**, which is mistyped with any other number of them. -/
def Run.single (holds : Value P → Bool) : List (Value P) → Run Unit P Bool
  | [u] => pure (holds u)
  | _ => raise .mistyped

/-- A match that holds in one way or another. -/
theorem otherwise_sieve_single (h k : Value P → Bool) (x : Value P × Value P) :
    (sieve (single h) x).otherwise (sieve (single k) x) = sieve (single fun u => h u || k u) x := by
  obtain ⟨t, d⟩ := x
  simp only [sieve]
  obtain _ | ⟨u, _ | _⟩ := t.components
  · rfl
  · change Run.otherwise (pure _) (pure _) = pure _
    cases hu : h u <;> simp [Run.otherwise, hu]
  · rfl

variable [Primitive P] {rules : String → Option (Value P)} {c d t x : Value P}
  {xs ys us : List (Value P)}

omit [Primitive P] in
theorem grows_single {holds : Value P → Bool} : Grows fun _ => single holds us := grows_const _

/-- **An action that answers a question about a single component** asks it. -/
theorem alike_asked_single {act : Action P} {holds : Value P → Bool}
    (h : ∀ (invoke : Invoke Unit P) (ctx : Context P) (us : List (Value P)),
      act.apply invoke ctx us = single holds us >>= fun b => pure (.bool b)) (us : List (Value P)) :
    Alike (fun n => asked rules (.action act) n us) fun _ => single holds us := by
  refine .of_succ fun n => ?_
  simp only [asked, call, h, own_unit, bind_pure, bind_assoc, LawfulMonad.pure_bind, isTruthy]

/-- Equality with a token is asked of a single component. -/
theorem alike_asked_equals : ∀ us, Alike (fun n => asked rules (.action (.equals x)) n us)
    fun _ => single (fun u => u.equals x) us :=
  alike_asked_single fun _ _ us => match us with
    | [] => rfl
    | [_] => rfl
    | _ :: _ :: _ => rfl

/-- So is equality with one of some tokens. -/
theorem alike_asked_oneOf : ∀ us, Alike (fun n => asked rules (.action (.oneOf xs)) n us)
    fun _ => single (fun u => u.isIn xs) us :=
  alike_asked_single fun _ _ us => match us with
    | [] => rfl
    | [_] => rfl
    | _ :: _ :: _ => rfl

/-! ## One token -/

/-- **A parser that asks a question of one token**, and produces the token if that holds. -/
theorem alike_run_satisfy_single {f : Callable P} {holds : Value P → Bool}
    (hf : ∀ us, Alike (fun n => asked rules f n us) fun _ => single holds us) :
    Alike (fun n => (satisfy f).run (quiet rules) n c) fun n =>
      (reading rules one c n).refined (sieve (single holds)) >>= fun m => pure m.result := by
  simp only [satisfy, run_named]
  refine (alike_run_filtered one_yieldsAt).trans ?_
  refine Alike.result (grows_reading.refined fun _ => grows_asked.sieve)
    (grows_reading.refined fun _ => grows_const _) ?_
  refine (Alike.refl _).refined grows_reading grows_reading fun t _ => ?_
  exact (hf t.1.components).sieve grows_asked grows_single

theorem alike_run_token : Alike (fun n => (token x).run (quiet rules) n c) fun n =>
    (reading rules one c n).refined (sieve (single fun u => u.equals x)) >>=
      fun m => pure m.result := by
  simp only [token, run_named]
  exact alike_run_satisfy_single alike_asked_equals

theorem alike_run_tokenIn : Alike (fun n => (tokenIn xs).run (quiet rules) n c) fun n =>
    (reading rules one c n).refined (sieve (single fun u => u.isIn xs)) >>=
      fun m => pure m.result := by
  simp only [tokenIn, run_named]
  exact alike_run_satisfy_single alike_asked_oneOf

theorem grows_refined_single {holds : Value P → Bool} :
    Grows fun n => (reading rules one c n).refined (sieve (single holds)) :=
  grows_reading.refined fun _ => grows_const _

theorem alike_reading_token : Alike (reading rules (token x) c) fun n =>
    (reading rules one c n).refined (sieve (single fun u => u.equals x)) :=
  alike_reading_of_result grows_refined_single alike_run_token

/-! ## Many tokens -/

/-- **Whether a value equals one of a list.** -/
def Value.equalsSome (u : Value P) (xs : List (Value P)) : Bool := xs.any u.equals

/-- **The choice of some tokens takes what equals one of them.** -/
theorem alike_choice_tokens : Alike (choice rules ((x :: xs).map token) c) fun n =>
    (reading rules one c n).refined (sieve (single fun u => u.equalsSome (x :: xs))) := by
  induction xs generalizing x with
  | nil =>
    rw [List.map_singleton, choice_singleton]
    refine alike_reading_token.trans (.of_eq fun n => ?_)
    simp [equalsSome]
  | cons y ys ih =>
    rw [List.map_cons, choice_cons]
    have head : Alike (reading rules (token x) c) fun n => (reading rules one c n).refined
        (sieve (single fun u => u.equals x)) := alike_reading_token
    refine (head.otherwise grows_reading grows_refined_single ih).trans ?_
    refine (alike_refined_otherwise (f := fun _ => sieve (single fun u => u.equals x))
      grows_reading fun _ => grows_const _).trans (.of_eq fun n => ?_)
    simp only [otherwise_sieve_single]
    rfl

theorem alike_run_choice {p : Parser P} (hne : xs ≠ []) (hp : alternative (xs.map token) = .ok p) :
    Alike (fun n => p.run (quiet rules) n c) fun n => (reading rules one c n).refined
      (sieve (single fun u => u.equalsSome xs)) >>= fun m => pure m.result := by
  obtain ⟨x, xs, rfl⟩ := List.exists_cons_of_ne_nil hne
  have branches : ∀ p ∈ (x :: xs).map token, Alike (fun n => p.run (quiet rules) n c) fun n =>
      reading rules p c n >>= fun m => pure m.result := by
    intro p hp
    obtain ⟨y, _, rfl⟩ := List.mem_map.1 hp
    exact alike_run_result grows_refined_single alike_run_token
  refine (alike_run_alternative hp branches).trans ?_
  exact alike_choice_tokens.result grows_choice grows_refined_single

theorem form_isText (x : Value P) : x.form.isText = true := by
  cases x <;> rfl

/-- Tokens are declared to produce a single component each, so any choice of them is admitted. -/
theorem alternative_tokens (hne : xs ≠ []) : ∃ p : Parser P,
    alternative (xs.map token) = .ok p ∧ p.arity = some 1 := by
  have typed : ∀ p ∈ xs.map (token : Value P → Parser P), p.Typed := by
    intro p hp
    obtain ⟨x, _, rfl⟩ := List.mem_map.1 hp
    exact ⟨form_isText x, fun n hn => by cases hn; rfl⟩
  match xs, hne with
  | [x], _ => exact ⟨token x, rfl, rfl⟩
  | x :: y :: xs, _ =>
    have same : ¬Differ ((x :: y :: xs).map (token : Value P → Parser P)) := by
      rintro ⟨p, hp, q, hq, m, n, hm, hn, hdiffer⟩
      obtain ⟨x, _, rfl⟩ := List.mem_map.1 hp
      obtain ⟨y, _, rfl⟩ := List.mem_map.1 hq
      cases hm
      cases hn
      contradiction
    have known : ((x :: y :: xs).map (token : Value P → Parser P)).all (·.declared.isSome) =
        true := by
      refine List.all_eq_true.2 fun p hp => ?_
      obtain ⟨x, _, rfl⟩ := List.mem_map.1 hp
      rfl
    refine ⟨_, join_of_typed (j := .alternative) typed (Nat.le_add_left 2 _) fun h => same h.2, ?_⟩
    simp only [joined, arity, alternated, sharedArity, if_pos known]
    rfl

/-! ## What is taken -/

variable (rules) in
/-- **How a token is taken of which something holds**: it is read, and if it has a single component
of which that holds, the component is produced. -/
inductive Taken (holds : Value P → Bool) (c : Value P) : Except (Error P) (Value P) → Prop
  | raises {e} (h : Raises (fun n => (one : Parser P).run (quiet rules) n c) e) :
    Taken holds c (.error e)
  | declines (h : Declines rules one c) : Taken holds c (.ok .failure)
  | takes {t d u : Value P} (h : Matches rules one c t d) (hu : t.components = [u])
      (hx : holds u = true) : Taken holds c (.ok (.success u.unwrap d none))
  | refuses {t d u : Value P} (h : Matches rules one c t d) (hu : t.components = [u])
      (hx : holds u = false) : Taken holds c (.ok .failure)
  | mistyped {t d : Value P} (h : Matches rules one c t d) (hu : t.components.length ≠ 1) :
    Taken holds c (.error .mistyped)

variable {holds : Value P → Bool} {a : Except (Error P) (Value P)}

omit [Primitive P] in
/-- What becomes of a token that is read. -/
theorem ends_sieve_single :
    Ends (fun _ => sieve (single holds) (t, d) >>= fun m => pure m.result) a ↔
      t.components.length ≠ 1 ∧ a = .error .mistyped ∨ ∃ u, t.components = [u] ∧
        a = .ok (if holds u then .success u.unwrap d none else .failure) := by
  simp only [sieve]
  obtain _ | ⟨u, _ | _⟩ := t.components
  · exact ends_raise_iff.trans (by simp)
  · refine ends_pure_iff.trans ?_
    cases hu : holds u <;> simp [hu, Reading.result]
  · exact ends_raise_iff.trans (by simp)

theorem ends_refined_single : Ends (fun n => (reading rules one c n).refined
    (sieve (single holds)) >>= fun m => pure m.result) a ↔ Taken rules holds c a := by
  simp only [refined, bind_assoc]
  refine (ends_bind grows_reading).trans ⟨?_, fun h => ?_⟩
  · rintro (⟨e, he, rfl⟩ | ⟨_ | ⟨t, d⟩, hm, ha⟩)
    · exact .raises (one_yieldsAt.raises_iff.1 he)
    · obtain rfl := ends_pure_iff.1 ha
      exact .declines (declines_iff_ends.2 hm)
    · have read := matches_iff_ends.2 hm
      obtain ⟨hu, rfl⟩ | ⟨u, hu, rfl⟩ := ends_sieve_single.1 ha
      · exact .mistyped read hu
      · cases hx : holds u with
        | false => exact .refuses read hu hx
        | true => exact .takes read hu hx
  · cases h with
    | raises he => exact .inl ⟨_, one_yieldsAt.raises_iff.2 he, rfl⟩
    | declines hno => exact .inr ⟨none, declines_iff_ends.1 hno, comes_pure _⟩
    | takes ht hu hx =>
      refine .inr ⟨_, matches_iff_ends.1 ht, ends_sieve_single.2 (.inr ⟨_, hu, ?_⟩)⟩
      rw [hx]
      rfl
    | refuses ht hu hx =>
      refine .inr ⟨_, matches_iff_ends.1 ht, ends_sieve_single.2 (.inr ⟨_, hu, ?_⟩)⟩
      rw [hx]
      rfl
    | mistyped ht hu =>
      exact .inr ⟨_, matches_iff_ends.1 ht, ends_sieve_single.2 (.inl ⟨hu, rfl⟩)⟩

theorem ends_tokenIn_iff : Ends (fun n => (tokenIn xs).run (quiet rules) n c) a ↔
    Taken rules (fun u => u.isIn xs) c a :=
  (alike_run_tokenIn a).trans ends_refined_single

theorem ends_choice_iff {p : Parser P} (hne : xs ≠ []) (hp : alternative (xs.map token) = .ok p) :
    Ends (fun n => p.run (quiet rules) n c) a ↔ Taken rules (fun u => u.equalsSome xs) c a :=
  (alike_run_choice hne hp a).trans ends_refined_single

/-- What is read decides. -/
theorem Matches.taken {u : Value P} (h : Matches rules one c t d) (hu : t.components = [u]) :
    Taken rules holds c (.ok (if holds u then .success u.unwrap d none else .failure)) := by
  cases hx : holds u with
  | false => exact .refuses h hu hx
  | true => exact .takes h hu hx

/-- **It is only asked of what is read**, and of the single component of that. -/
theorem taken_congr {holds' : Value P → Bool} (h : ∀ t d u, Matches rules one c t d →
    t.components = [u] → holds u = holds' u) : Taken rules holds c a → Taken rules holds' c a
  | .raises he => .raises he
  | .declines hno => .declines hno
  | .takes ht hu hx => .takes ht hu (by rw [← h _ _ _ ht hu, hx])
  | .refuses ht hu hx => .refuses ht hu (by rw [← h _ _ _ ht hu, hx])
  | .mistyped ht hu => .mistyped ht hu

/-- So what is taken tells whether the same holds of what is read. -/
theorem forall_taken_iff {holds' : Value P → Bool} :
    (∀ a, Taken rules holds c a ↔ Taken rules holds' c a) ↔ ∀ t d u, Matches rules one c t d →
      t.components = [u] → holds u = holds' u := by
  refine ⟨fun same t d u ht hu => ?_, fun h a => ⟨taken_congr h, taken_congr ?_⟩⟩
  · have other : Taken rules holds' c _ := ht.taken hu
    have decided := (ends_refined_single.2 ((same _).1 (ht.taken hu))).unique
      (ends_refined_single.2 other)
    cases hx : holds u <;> cases hx' : holds' u <;> simp [hx, hx'] at decided ⊢
  · exact fun t d u ht hu => (h t d u ht hu).symm

omit [Primitive P] in
/-- **Only which tokens there are matters**, not in which order or how often. -/
theorem any_congr_of_mem_iff {q : Value P → Bool} (h : ∀ x, x ∈ ys ↔ x ∈ xs) :
    ys.any q = xs.any q := by
  rw [Bool.eq_iff_iff]
  simp only [List.any_eq_true, h]

/-- **One of some tokens, and the choice of these tokens.**  The choice is admitted, and both are
declared to produce a single component.  At every cursor both end without a match at the end; with
the error, if the token there cannot be read; and with an error if it is a composite that does not
hold a single component.  Otherwise the one produces the token if an option is the same object or
equals it, the other if it equals an option.  So they end alike at a cursor exactly if these are the
same of the token there.  Neither the order of the tokens matters nor how often each is listed. -/
theorem tokenIn_beside_choice (hne : xs ≠ []) :
    ∃ p : Parser P, alternative (xs.map token) = .ok p ∧ p.arity = some 1 ∧
      (tokenIn xs : Parser P).arity = some 1 ∧ ∀ rules c,
        (∀ a, Ends (fun n => (tokenIn xs).run (quiet rules) n c) a ↔
          Taken rules (fun u => xs.any fun x => x.isOrEquals u) c a) ∧
        (∀ a, Ends (fun n => p.run (quiet rules) n c) a ↔
          Taken rules (fun u => xs.any fun x => u.equals x) c a) ∧
        (Alike (fun n => (tokenIn xs).run (quiet rules) n c) (fun n => p.run (quiet rules) n c) ↔
          ∀ t d u, Matches rules one c t d → t.components = [u] →
            (xs.any fun x => x.isOrEquals u) = xs.any fun x => u.equals x) ∧
        ∀ ys, (∀ x, x ∈ ys ↔ x ∈ xs) →
          Alike (fun n => (tokenIn ys).run (quiet rules) n c)
            (fun n => (tokenIn xs).run (quiet rules) n c) ∧
          ∃ q : Parser P, alternative (ys.map token) = .ok q ∧
            Alike (fun n => q.run (quiet rules) n c) fun n => p.run (quiet rules) n c := by
  obtain ⟨p, hp, hcount⟩ := alternative_tokens hne
  refine ⟨p, hp, hcount, rfl, fun rules c => ⟨fun a => ends_tokenIn_iff,
    fun a => ends_choice_iff hne hp, ?_, fun ys h => ⟨fun a => ?_, ?_⟩⟩⟩
  · refine .trans (forall_congr' fun a => ?_) forall_taken_iff
    rw [ends_tokenIn_iff, ends_choice_iff hne hp]
    rfl
  · simp only [ends_tokenIn_iff, isIn, any_congr_of_mem_iff h]
  · have hys : ys ≠ [] := by
      obtain ⟨x, hx⟩ := List.exists_mem_of_ne_nil xs hne
      exact List.ne_nil_of_mem ((h x).2 hx)
    obtain ⟨q, hq, -⟩ := alternative_tokens hys
    refine ⟨q, hq, fun a => ?_⟩
    simp only [ends_choice_iff hys hq, ends_choice_iff hne hp, equalsSome, any_congr_of_mem_iff h]

/-- The options are 1 and `a`.  The token `True` equals the first of them, and it is the token that
is produced; two letters in one token are compared with neither, by the choice as well. -/
theorem truth_is_one_of_one_and_letter :
    let rules : String → Option (Value Catalogue) := fun _ => none
    let o : Origin := ⟨none, true⟩
    let xs : List (Value Catalogue) := [.ofInt 1, char 'a']
    let pair : Value Catalogue := .composite [char 'a', char 'b'] none
    let c : Value Catalogue := spot o [] [.bool true, pair]
    let d : Value Catalogue := spot o [.bool true] [pair]
    xs ≠ [] ∧ ∃ p : Parser Catalogue, alternative (xs.map token) = .ok p ∧
      Matches rules (tokenIn xs) c (.bool true) d ∧ Matches rules p c (.bool true) d ∧
      Raises (fun n => (tokenIn xs).run (quiet rules) n d) .mistyped ∧
      Raises (fun n => p.run (quiet rules) n d) .mistyped := by
  intro rules o xs pair c d
  have hne : xs ≠ [] := List.cons_ne_nil _ _
  have read (t : Value Catalogue) {rest : List (Value Catalogue)} :
      Finds rules (one : Parser Catalogue).body [t] t rest := finds_one
  have truth : Matches rules one c (.bool true) d := (read (.bool true)).matches rfl
  have letters : Matches rules one d pair (spot o [pair, .bool true] []) := (read pair).matches rfl
  obtain ⟨p, hp, -, -, beside⟩ := tokenIn_beside_choice hne
  obtain ⟨lookedUp, chosen, -⟩ := beside rules c
  obtain ⟨lookedUp', chosen', -⟩ := beside rules d
  exact ⟨hne, p, hp, ⟨none, (lookedUp _).2 (.takes truth rfl rfl)⟩,
    ⟨none, (chosen _).2 (.takes truth rfl rfl)⟩,
    (lookedUp' _).2 (.mistyped letters (by decide)),
    (chosen' _).2 (.mistyped letters (by decide))⟩

/-- **One of some tokens is not the choice of these tokens.**  What is no number is one of the
options if it is the very object listed there, and the choice of that option does not match it.
What says that it equals everything is matched by the choice of a failure; a failure, asked whether
it equals that, denies it. -/
theorem tokenIn_is_not_choice :
    let rules : String → Option (Value Catalogue) := fun _ => none
    let o : Origin := ⟨none, true⟩
    let nan : Value Catalogue := .nan (some 1024)
    let anything : Value Catalogue := .anything (some 1024)
    (Matches rules (tokenIn [nan]) (spot o [] [nan]) nan (spot o [nan] []) ∧
      ∃ p, alternative ([nan].map token) = .ok p ∧ Declines rules p (spot o [] [nan])) ∧
    Declines rules (tokenIn [.failure]) (spot o [] [anything]) ∧
      ∃ p, alternative ([.failure].map token) = .ok p ∧
        Matches rules p (spot o [] [anything]) anything (spot o [anything] []) := by
  intro rules o nan anything
  have read (t : Value Catalogue) : Matches rules one (spot o [] [t]) t (spot o [t] []) := by
    have found : Finds rules (one : Parser Catalogue).body [t] t [] := finds_one
    exact found.matches rfl
  have single (x : Value Catalogue) : [x] ≠ [] := List.cons_ne_nil x []
  obtain ⟨p, hp, -⟩ := alternative_tokens (single nan)
  obtain ⟨q, hq, -⟩ := alternative_tokens (single (.failure : Value Catalogue))
  refine ⟨⟨⟨none, ends_tokenIn_iff.2 (.takes (read nan) rfl rfl)⟩, p, hp, .failure, rfl, ?_⟩,
    ⟨.failure, rfl, ends_tokenIn_iff.2 (.refuses (read anything) rfl rfl)⟩, q, hq, none, ?_⟩
  · exact (ends_choice_iff (single nan) hp).2 (.refuses (read nan) rfl rfl)
  · exact (ends_choice_iff (single .failure) hq).2 (.takes (read anything) rfl rfl)

end ParserAlgebra
