import ParserAlgebra.Catalogue.Readers
import ParserAlgebra.Proofs.Arity.Counted
import ParserAlgebra.Proofs.Ends.Filters
import ParserAlgebra.Proofs.Finds
import ParserAlgebra.Proofs.Unwrapped
import ParserAlgebra.Script.Grammar

/-!
# Proofs/Restriction — a filter restricts a parser

    p ──filter f──▸ ──filter g──▸    is    p ──filter (f and then g)──▸

What a parser matches is passed on as it is if a predicate holds of its components, and is refused
otherwise; nothing else changes, and what is raised by the parser or the predicate is raised.  The
components are rebuilt into the same value, so the next predicate is asked about the same components
again.  Two filters are then one filter with both predicates, the second asked only if the first one
holds.  If neither raises, it does not matter which comes first.
-/

namespace ParserAlgebra

variable {P : Type}

open Value ParserAlgebra.Parser ParserAlgebra.Run

/-! ## Filters behind a parser -/

/-- **The parser followed by a filter.** -/
def Parser.filtering [Labelled P] (p : Parser P) (f : Callable P) : Except (Error P) (Parser P) :=
  p.map (.filter f)

section

variable [Labelled P] {p s : Parser P} {f : Callable P}

/-- A filter asks for no components, so it is admitted behind any count of them. -/
theorem filtering_of_counted (hp : p.Counted) : p.filtering f = .ok (p.mapped (.filter f)) :=
  map_of_counted_of_requires hp rfl

variable (hs : p.filtering f = .ok s)

include hs

theorem eq_mapped_of_filtering : s = p.mapped (.filter f) := (map_eq_ok hs).2

/-- Whether a filter is admitted does not depend on its predicate. -/
theorem filtering_of_filtering (g : Callable P) : p.filtering g = .ok (p.mapped (.filter g)) := by
  obtain ⟨_, hc, hm⟩ := exists_ok_of_bind hs
  obtain ⟨q, hq, _⟩ := exists_ok_of_bind hm
  obtain rfl := titled_eq_ok hq
  have same : q.checkArity (.filter g) = .ok () := hc
  simp only [filtering, map, same, hq]
  rfl

/-- Nor does it depend on another filter in front of it. -/
theorem filtering_again (g : Callable P) : s.filtering g = .ok (s.mapped (.filter g)) := by
  obtain ⟨admitted, rfl⟩ := map_eq_ok hs
  have again : (p.mapped (.filter f)).checkArity (.filter g) = .ok () :=
    checkArity_of_declared admitted rfl
  simp only [filtering, map, again, titled_of_isText (p := p.mapped (.filter f)) rfl]
  rfl

end

/-! ## What is passed on -/

variable [Primitive P] {rules : String → Option (Value P)} {f g h : Callable P} {p : Parser P}
  {c : Value P} {x : Value P × Value P} {xs : List (Value P)}

section

variable (rules)

/-- **How a restricted parser ends**: as the parser does, unless that matches and the predicate does
not hold of the components of its value.  The value is passed on as a new one. -/
inductive Restricted (f : Callable P) (p : Parser P) (c : Value P) :
    Except (Error P) (Value P) → Prop
  | raises {e} (h : Raises (fun n => p.run (quiet rules) n c) e) : Restricted f p c (.error e)
  | declines (h : Declines rules p c) : Restricted f p c (.ok .failure)
  | throws {v d e} (h : Matches rules p c v d) (hf : Returns rules f v.components (.error e)) :
    Restricted f p c (.error e)
  | refuses {v d b} (h : Matches rules p c v d) (hf : Returns rules f v.components (.ok b))
      (hb : b.isTruthy = false) : Restricted f p c (.ok .failure)
  | passes {v d b} (h : Matches rules p c v d) (hf : Returns rules f v.components (.ok b))
      (hb : b.isTruthy = true) : Restricted f p c (.ok (.success v.anew d none))

/-- **One predicate and then another**, which is asked only if the first one holds. -/
def askedBoth (f g : Callable P) (n : Nat) (xs : List (Value P)) : Run Unit P Bool :=
  asked rules f n xs >>= fun holds => if holds then asked rules g n xs else pure false

/-- **A predicate that is one and then another**: it holds of the components, or does not, or
raises, as the two do. -/
def Conjoins (f g h : Callable P) (xs : List (Value P)) : Prop :=
  Alike (fun n => asked rules h n xs) fun n => askedBoth rules f g n xs

end

theorem grows_askedBoth : Grows fun n => askedBoth rules f g n xs := by
  refine grows_asked.bind fun holds => ?_
  cases holds with
  | false => exact grows_const _
  | true => exact grows_asked

/-- Two predicates that return hold together if both hold. -/
theorem comes_askedBoth {a b : Bool} (hf : Comes (fun n => asked rules f n xs) a)
    (hg : Comes (fun n => asked rules g n xs) b) :
    Comes (fun n => askedBoth rules f g n xs) (a && b) := by
  refine hf.bind ?_
  cases a with
  | false => exact comes_pure false
  | true => exact hg

/-- **A function that calls one predicate and then another** if the first one holds. -/
theorem conjoins_of_calls {t : P} {i j : Identity}
    (ht : Primitive.call t xs = .calls (.callable f i) xs fun b =>
      if b.isTruthy then .calls (.callable g j) xs .answers else .answers b) :
    Conjoins rules f g (.action (.primitive t)) xs := by
  refine .of_succ fun n => ?_
  have called : (call (quiet rules) (n + 1) (.action (.primitive t)) xs : Run Unit P _) =
      call (quiet rules) n f xs >>= fun b =>
        if b.isTruthy then call (quiet rules) n g xs else pure b := by
    simp only [call, Action.apply, ht, Conduct.follow, invokeWith, own_unit, ownAll_unit, bind_pure,
      LawfulMonad.pure_bind]
    refine bind_congr fun b => ?_
    cases b.isTruthy with
    | false => rfl
    | true => simp [Conduct.follow, invokeWith]
  simp only [asked, askedBoth, called, bind_assoc, LawfulMonad.pure_bind]
  refine bind_congr fun b => ?_
  cases hb : b.isTruthy with
  | false => simp [hb]
  | true => rfl

/-! ## Filters -/

omit [Primitive P] in
/-- **Behind a sieve the next one asks about the same components.** -/
theorem refined_sieve (hx : x.1.unwrap = x.1) (r t : List (Value P) → Run Unit P Bool) :
    (sieve r x).refined (sieve t) =
      sieve (fun xs => r xs >>= fun holds => if holds then t xs else pure false) x := by
  have rebuilt : (tupleOf x.1.components).unwrap = x.1.anew := by
    rw [tupleOf_components hx, unwrap_anew hx]
  simp only [sieve, refined, bind_assoc, LawfulMonad.pure_bind]
  refine bind_congr fun holds => ?_
  cases holds with
  | false => rfl
  | true =>
    change sieve t ((tupleOf x.1.components).unwrap, x.2) = _
    rw [sieve, rebuilt, components_anew, rebuilt]
    rfl

section

variable (hp : p.YieldsAt rules (fun v => v.unwrap = v) c)

include hp

/-- **A filtered parser is restricted.** -/
theorem ends_filter_iff {a : Except (Error P) (Value P)} :
    Ends (fun n => (p.mapped (.filter f)).run (quiet rules) n c) a ↔ Restricted rules f p c a := by
  have rebuilt {v d : Value P} (h : Matches rules p c v d) :
      (tupleOf v.components).unwrap = v.anew := by
    rw [tupleOf_components (hp.of_matches h), unwrap_anew (hp.of_matches h)]
  refine (ends_filtered_iff hp).trans ⟨?_, fun h => ?_⟩
  · rintro (⟨e, he, rfl⟩ | ⟨hno, rfl⟩ | ⟨v, d, hm, ha⟩)
    · exact .raises he
    · exact .declines hno
    · obtain ⟨e, he, rfl⟩ | ⟨b, hb, rfl⟩ := ends_sifted.1 ha
      · exact .throws hm he
      · rw [rebuilt hm]
        cases htrue : b.isTruthy with
        | false => exact .refuses hm hb htrue
        | true => exact .passes hm hb htrue
  · cases h with
    | raises he => exact .inl ⟨_, he, rfl⟩
    | declines hno => exact .inr (.inl ⟨hno, rfl⟩)
    | throws hm he => exact .inr (.inr ⟨_, _, hm, ends_sifted.2 (.inl ⟨_, he, rfl⟩)⟩)
    | refuses hm hb hfalse =>
      refine .inr (.inr ⟨_, _, hm, ends_sifted.2 (.inr ⟨_, hb, ?_⟩)⟩)
      rw [hfalse]
      rfl
    | passes hm hb htrue =>
      refine .inr (.inr ⟨_, _, hm, ends_sifted.2 (.inr ⟨_, hb, ?_⟩)⟩)
      rw [htrue, rebuilt hm]
      rfl

/-- What comes through a filter is unwrapped. -/
theorem yieldsAt_filter :
    (p.mapped (.filter f)).YieldsAt rules (fun v => v.unwrap = v) c := by
  refine yieldsAt_of_result (grows_reading.refined fun _ => grows_asked.sieve)
    (alike_run_filtered hp) fun v d hv => ?_
  obtain ⟨x, b, _, _, _, rfl⟩ := (matches_filtered_iff hp).1
    (matches_iff_ends.2 ((alike_reading_filtered hp (.ok _)).2 hv))
  exact unwrap_unwrap _

/-- **Behind two filters there is what both predicates hold of.** -/
theorem alike_run_filter_twice :
    Alike (fun n => ((p.mapped (.filter f)).mapped (.filter g)).run (quiet rules) n c) fun n =>
      (reading rules p c n).refined (sieve (askedBoth rules f g n)) >>= fun m => pure m.result := by
  have once : Grows fun n => (reading rules p c n).refined (sieve (asked rules f n)) :=
    grows_reading.refined fun _ => grows_asked.sieve
  have twice : Alike
      (fun n => (reading rules (p.mapped (.filter f)) c n).refined (sieve (asked rules g n)))
      fun n => (reading rules p c n).refined (sieve (askedBoth rules f g n)) := by
    refine ((alike_reading_filtered hp).refined grows_reading once fun _ _ => .refl _).trans ?_
    simp only [refined_refined]
    refine (Alike.refl _).refined grows_reading grows_reading fun x hx => .of_eq fun n => ?_
    exact refined_sieve (hp.of_ends hx) _ _
  exact (alike_run_filtered (yieldsAt_filter hp)).trans
    (twice.result (grows_reading.refined fun _ => grows_asked.sieve)
      (grows_reading.refined fun _ => grows_askedBoth.sieve))

omit hp in
/-- What is passed on is the same if something alike is asked about all matches. -/
theorem alike_result_sieve {r t : Nat → List (Value P) → Run Unit P Bool}
    (hr : ∀ xs, Grows fun n => r n xs) (ht : ∀ xs, Grows fun n => t n xs)
    (h : ∀ v d, Matches rules p c v d →
      Alike (fun n => r n v.components) fun n => t n v.components) :
    Alike (fun n => (reading rules p c n).refined (sieve (r n)) >>= fun m => pure m.result)
      fun n => (reading rules p c n).refined (sieve (t n)) >>= fun m => pure m.result := by
  refine Alike.result (grows_reading.refined fun x => (hr _).sieve)
    (grows_reading.refined fun x => (ht _).sieve) ?_
  refine (Alike.refl _).refined grows_reading grows_reading fun x hx => ?_
  exact (h x.1 x.2 (matches_iff_ends.2 hx)).sieve (hr _) (ht _)

/-- **Two filters are one** with a predicate that is both. -/
theorem alike_run_filter_conjoined
    (hh : ∀ v d, Matches rules p c v d → Conjoins rules f g h v.components) :
    Alike (fun n => ((p.mapped (.filter f)).mapped (.filter g)).run (quiet rules) n c) fun n =>
      (p.mapped (.filter h)).run (quiet rules) n c := by
  refine (alike_run_filter_twice hp).trans (Alike.trans ?_ (alike_run_filtered hp).symm)
  exact alike_result_sieve (fun _ => grows_askedBoth) (fun _ => grows_asked)
    fun v d hv => (hh v d hv).symm

/-- **Two filters commute** if both predicates return. -/
theorem alike_run_filter_commuted (hb : ∀ v d, Matches rules p c v d →
    (∃ a, Returns rules f v.components (.ok a)) ∧ ∃ b, Returns rules g v.components (.ok b)) :
    Alike (fun n => ((p.mapped (.filter f)).mapped (.filter g)).run (quiet rules) n c) fun n =>
      ((p.mapped (.filter g)).mapped (.filter f)).run (quiet rules) n c := by
  refine (alike_run_filter_twice hp).trans (Alike.trans ?_ (alike_run_filter_twice hp).symm)
  refine alike_result_sieve (fun _ => grows_askedBoth) (fun _ => grows_askedBoth) fun v d hv => ?_
  obtain ⟨⟨a, ha⟩, b, hb⟩ := hb v d hv
  have holds_f := comes_asked_iff.2 ⟨a, ha, rfl⟩
  have holds_g := comes_asked_iff.2 ⟨b, hb, rfl⟩
  refine (Alike.of_comes (comes_askedBoth holds_f holds_g)).trans (Alike.symm ?_)
  rw [Bool.and_comm]
  exact .of_comes (comes_askedBoth holds_g holds_f)

end

/-- **A filter is a pure restriction.**  It is admitted behind any parser whose arity is a count or
unknown.  Behind a parser whose values are unwrapped it ends as that parser does, but with a failure
where the predicate does not hold, and with the predicate's error where that raises; it declares the
same arity.  However it is written it is the same parser.  A filter behind a filter is admitted as
well, and ends as one filter with a predicate that is the first and then the second.  If both
predicates return wherever the parser matches, the filters may be exchanged. -/
theorem filter_restricts (p : Parser P) (f : Callable P) (rules : String → Option (Value P)) :
    (p.Counted → ∃ s, p.filtering f = .ok s) ∧ ∀ s, p.filtering f = .ok s →
    s.declared = p.declared ∧
    (∀ (w : Writing) (i j : Identity),
      (GrammarOperation.map w).apply [.callable (.parser p) i, .callable (.mapper (.filter f)) j] =
        Scripted.build (.ok s) ∧
      (GrammarOperation.tryMap w).apply
        [.callable (.parser p) i, .callable (.mapper (.filter f)) j] = Scripted.build (.ok s)) ∧
    (∀ c, p.YieldsAt rules (fun v => v.unwrap = v) c →
      ∀ a, Ends (fun n => s.run (quiet rules) n c) a ↔ Restricted rules f p c a) ∧
    ∀ g, (∀ t i j xs, (Primitive.call t xs = .calls (.callable f i) xs fun b =>
        if b.isTruthy then .calls (.callable g j) xs .answers else .answers b) →
          Conjoins rules f g (.action (.primitive t)) xs) ∧
      ∃ t q u, p.filtering g = .ok t ∧ s.filtering g = .ok q ∧ t.filtering f = .ok u ∧
      ∀ c, p.YieldsAt rules (fun v => v.unwrap = v) c →
        (∀ h r, p.filtering h = .ok r →
          (∀ v d, Matches rules p c v d → Conjoins rules f g h v.components) →
          Alike (fun n => q.run (quiet rules) n c) fun n => r.run (quiet rules) n c) ∧
        ((∀ v d, Matches rules p c v d →
          (∃ a, Returns rules f v.components (.ok a)) ∧
            ∃ b, Returns rules g v.components (.ok b)) →
          Alike (fun n => q.run (quiet rules) n c) fun n => u.run (quiet rules) n c) := by
  refine ⟨fun hp => ⟨_, filtering_of_counted hp⟩, fun s hs => ?_⟩
  obtain rfl := eq_mapped_of_filtering hs
  have written : p.map (.filter f) = .ok (p.mapped (.filter f)) := hs
  refine ⟨rfl, fun w i j => ?_, fun c hp a => ends_filter_iff hp, fun g => ?_⟩
  · rw [← written]
    cases w <;> exact ⟨rfl, rfl⟩
  · refine ⟨fun t i j xs => conjoins_of_calls, ?_⟩
    have other := filtering_of_filtering hs g
    refine ⟨_, _, _, other, filtering_again hs g, filtering_again other f, fun c hp => ⟨?_, ?_⟩⟩
    · intro h r hr hh
      obtain rfl := eq_mapped_of_filtering hr
      exact alike_run_filter_conjoined hp hh
    · exact alike_run_filter_commuted hp

/-- Two letters that differ and are in ascending order: on `ab` they are kept by both filters in
either order, as they are by the second filter alone. -/
theorem ascending_letters_kept :
    let rules : String → Option (Value Catalogue) := fun _ => none
    let o : Origin := ⟨none, true⟩
    let p : Parser Catalogue := sequenced [one, one]
    let c : Value Catalogue := spot o [] (characters "ab")
    let d : Value Catalogue := spot o (characters "ba") []
    let v : Value Catalogue := .composite [char 'a', char 'b'] none
    let ne : Callable Catalogue := .action (.primitive (.onValues .ne))
    let lt : Callable Catalogue := .action (.primitive (.onValues .lt))
    p.YieldsAt rules (fun v => v.unwrap = v) c ∧ Conjoins rules ne lt lt v.components ∧
    ∃ s t q u, p.filtering ne = .ok s ∧ p.filtering lt = .ok t ∧ s.filtering lt = .ok q ∧
      t.filtering ne = .ok u ∧
      Matches rules t c v d ∧ Matches rules q c v d ∧ Matches rules u c v d := by
  intro rules o p c d v ne lt
  have found : Finds rules p.body ([char 'a'] ++ ([char 'b'] ++ [])) _ [] :=
    finds_sequence (.cons (p := one) finds_one (.cons (p := one) finds_one .nil))
  have matched : Matches rules p c v d := found.matches rfl
  have kept : v.unwrap = v := unwrap_composite_cons_cons _ _ _ _
  have hp : p.YieldsAt rules (fun v => v.unwrap = v) c := matched.yieldsAt kept
  have differ : Returns rules ne v.components (.ok (.bool true)) :=
    (comes_action (comes_pure _)).returns
  have ascend : Returns rules lt v.components (.ok (.bool true)) :=
    (comes_action (comes_pure _)).returns
  have first := comes_asked_iff.2 ⟨_, differ, rfl⟩
  have second := comes_asked_iff.2 ⟨_, ascend, rfl⟩
  have conjoined : Conjoins rules ne lt lt v.components :=
    (Alike.of_comes second).trans (Alike.of_comes (comes_askedBoth first second)).symm
  have only {w e : Value Catalogue} (h : Matches rules p c w e) : w = v := (h.unique matched).1.symm
  have hs : p.filtering ne = .ok (p.mapped (.filter ne)) := rfl
  obtain ⟨-, -, -, behind⟩ := (filter_restricts p ne rules).2 _ hs
  obtain ⟨-, t, q, u, ht, hq, hu, same⟩ := behind lt
  obtain ⟨once, commuted⟩ := same c hp
  obtain ⟨-, -, restricted, -⟩ := (filter_restricts p lt rules).2 t ht
  have alone := (restricted c hp _).2 (.passes matched ascend rfl)
  have together := once lt t ht fun w e hw => only hw ▸ conjoined
  have exchanged := commuted fun w e hw => only hw ▸ ⟨⟨_, differ⟩, _, ascend⟩
  have both := (together _).2 alone
  exact ⟨hp, conjoined, _, t, q, u, hs, ht, hq, hu, ⟨none, alone⟩, ⟨none, both⟩, none,
    (exchanged _).1 both⟩

end ParserAlgebra
