import ParserAlgebra.Catalogue.Readers
import ParserAlgebra.Proofs.Ends.Choices
import ParserAlgebra.Proofs.Finds.General

/-!
# Proofs/Factoring — a common prefix of all branches can be factored out

    p₁ … pₘ (q₁ | … | qₙ)   ends as   p₁ … pₘ q₁ | … | p₁ … pₘ qₙ

On the left the prefix is read once, on the right once for each branch that is tried.  If it raises,
the first branch on the right does; if it does not match, no branch does; and if it matches, each
branch goes on from the same cursor, so it is the same one that matches first.  In either form the
components of the prefix and of the branch are put together by one sequence, and nothing has to be
known of the values.
-/

namespace ParserAlgebra

open Value ParserAlgebra.Parser ParserAlgebra.Run

variable {P : Type} [Primitive P] {rules : String → Option (Value P)} {ps qs : List (Parser P)}
  {q r : Parser P} {c : Value P}

/-! ## A prefix and what comes behind it -/

section

variable {f g : Value P → Nat → Run Unit P (Reading P (Value P))}

variable (rules) in
/-- **A prefix and what is read behind it**, as the value of their sequence. -/
def behind (ps : List (Parser P)) (f : Value P → Nat → Run Unit P (Reading P (Value P)))
    (c : Value P) (n : Nat) : Run Unit P (Reading P (Value P)) :=
  (row rules ps c n).followed (fun d => f d n) fun vs w => concat (vs ++ [w])

theorem grows_behind (hf : ∀ d, Grows (f d)) : Grows (behind rules ps f c) :=
  grows_row.followed hf _

theorem Alike.behind (hf : ∀ d, Grows (f d)) (hg : ∀ d, Grows (g d)) (h : ∀ d, Alike (f d) (g d)) :
    Alike (behind rules ps f c) (ParserAlgebra.behind rules ps g c) :=
  (Alike.refl _).followed grows_row grows_row hf hg (fun _ d _ => h d) _

/-- **A prefix in front of either of two is in front of both.** -/
theorem alike_behind_otherwise (hf : ∀ d, Grows (f d)) :
    Alike (fun n => (behind rules ps f c n).otherwise (behind rules ps g c n))
      (behind rules ps (fun d n => (f d n).otherwise (g d n)) c) :=
  alike_followed_otherwise grows_row hf _

end

/-- The sequence of the prefix and one parser. -/
theorem alike_reading_behind : Alike (reading rules (sequenced (ps ++ [q])) c)
    (behind rules ps (reading rules q) c) := by
  refine alike_reading_sequenced.trans (.of_eq fun n => ?_)
  simp only [behind, row_append, row_singleton, onValue_followed, followed_onValue_right]

/-- **The choice of all branches, each with the prefix**, is the prefix and the choice behind it. -/
theorem alike_choice_behind (hne : qs ≠ []) :
    Alike (choice rules (qs.map fun q => sequenced (ps ++ [q])) c)
      (behind rules ps (choice rules qs) c) := by
  induction qs with
  | nil => contradiction
  | cons q qs ih =>
    by_cases hqs : qs = []
    · subst hqs
      have only : choice rules [q] = reading rules q := funext fun _ => choice_singleton
      rw [List.map_singleton, choice_singleton, only]
      exact alike_reading_behind
    · have first : choice rules (q :: qs) = fun d n =>
          (reading rules q d n).otherwise (choice rules qs d n) := funext fun _ => choice_cons
      rw [List.map_cons, choice_cons, first]
      exact (alike_reading_behind.otherwise grows_reading (grows_behind fun _ => grows_reading)
        (ih hqs)).trans (alike_behind_otherwise fun _ => grows_reading)

/-! ## Both forms -/

/-- A prefix that is there makes a sequence. -/
theorem eq_sequenced_of_append (hps : ps ≠ []) (h : Parser.sequence (ps ++ [q]) = .ok r) :
    r = sequenced (ps ++ [q]) := by
  obtain hone | ⟨_, hr⟩ := sequence_eq_ok h
  · have size := congrArg List.length hone
    simp [hps] at size
  · exact hr

theorem eq_map_of_mapM (hps : ps ≠ []) {rs : List (Parser P)}
    (h : (qs.mapM fun q => Parser.sequence (ps ++ [q])) = .ok rs) :
    rs = qs.map fun q => sequenced (ps ++ [q]) := by
  induction qs generalizing rs with
  | nil =>
    cases h
    rfl
  | cons q qs ih =>
    rw [List.mapM_cons] at h
    obtain ⟨r, hr, h⟩ := exists_ok_of_bind h
    obtain ⟨rs, hrs, h⟩ := exists_ok_of_bind h
    cases h
    rw [eq_sequenced_of_append hps hr, ih hrs, List.map_cons]

/-- **A common prefix of all branches can be factored out.**  A sequence that ends in an alternative
and the alternative of all sequences that end in one of its branches end alike at all cursors: with
the same value and the same next cursor, without a match, or with the same error. -/
theorem common_prefix_factors_out (hps : ps ≠ []) {factored spelled : Parser P}
    (hf : (alternative qs >>= fun a => Parser.sequence (ps ++ [a])) = .ok factored)
    (hs : (qs.mapM (fun q => Parser.sequence (ps ++ [q])) >>= alternative) = .ok spelled)
    (c : Value P) :
    Alike (fun n => factored.run (quiet rules) n c) fun n => spelled.run (quiet rules) n c := by
  obtain ⟨a, ha, hf⟩ := exists_ok_of_bind hf
  obtain ⟨rs, hrs, hs⟩ := exists_ok_of_bind hs
  obtain rfl := eq_map_of_mapM hps hrs
  match qs with
  | [] => contradiction
  | [q] =>
    cases ha
    cases hs
    rw [eq_sequenced_of_append hps hf]
    exact .refl _
  | q :: q' :: qs =>
    obtain rfl := eq_alternated_of_alternative ha
    obtain rfl := eq_sequenced_of_append hps hf
    obtain rfl := eq_alternated_of_alternative hs
    have branches : ∀ r ∈ (q :: q' :: qs).map fun q => sequenced (ps ++ [q]),
        Alike (fun n => r.run (quiet rules) n c) fun n =>
          reading rules r c n >>= fun m => pure m.result := by
      intro r hr
      obtain ⟨q, _, rfl⟩ := List.mem_map.1 hr
      exact alike_result_sequenced
    have prefixed : Alike (reading rules (sequenced (ps ++ [alternated (q :: q' :: qs)])) c)
        (behind rules ps (choice rules (q :: q' :: qs)) c) :=
      alike_reading_behind.trans
        (.behind (fun _ => grows_reading) (fun _ => grows_choice) fun _ => alike_reading_alternated)
    have same := prefixed.trans (alike_choice_behind (List.cons_ne_nil q (q' :: qs))).symm
    exact alike_result_sequenced.trans
      ((same.result grows_reading grows_choice).trans (alike_run_alternated branches).symm)

/-- Behind any token, `x` or else any token: with the token factored out of both branches, `ab` is
matched, and so it is with the branches spelled out. -/
theorem second_branch_factored :
    let rules : String → Option (Value Catalogue) := fun _ => none
    let o : Origin := ⟨none, true⟩
    let x : Parser Catalogue := token (.ofText "x")
    ∃ factored spelled,
      (alternative [x, one] >>= fun a => Parser.sequence ([one] ++ [a])) = .ok factored ∧
      ([x, one].mapM (fun q => Parser.sequence ([one] ++ [q])) >>= alternative) = .ok spelled ∧
      Matches rules factored (spot o [] (characters "ab"))
        (.composite [char 'a', char 'b'] none) (spot o (characters "ba") []) ∧
      Matches rules spelled (spot o [] (characters "ab"))
        (.composite [char 'a', char 'b'] none) (spot o (characters "ba") []) := by
  intro rules o x
  have left : (alternative [x, one] >>= fun a => Parser.sequence ([one] ++ [a])) =
      .ok (sequenced [one, alternated [x, one]]) := rfl
  have right : ([x, one].mapM (fun q => Parser.sequence ([one] ++ [q])) >>= alternative) =
      .ok (alternated [sequenced [one, x], sequenced [one, one]]) := rfl
  have letter : Outside ['x'] ['b'] := outside_cons.2 (by decide)
  have missed : Misses rules x.body [char 'b'] := misses_tokenChar 'x' letter
  have second : Finds rules (alternated [x, one]).body [char 'b'] (char 'b') [] :=
    finds_tail missed (finds_head finds_one)
  have found : Finds rules (sequenced [one, alternated [x, one]]).body
      ([char 'a'] ++ ([char 'b'] ++ [])) _ [] :=
    finds_sequence (.cons (p := one) finds_one (.cons second .nil))
  have matched : Matches rules (sequenced [one, alternated [x, one]])
      (spot o [] (characters "ab")) _ (spot o (characters "ba") []) := found.matches rfl
  obtain ⟨k, hk⟩ := matched
  refine ⟨_, _, left, right, ⟨k, hk⟩, k, ?_⟩
  exact (common_prefix_factors_out (List.cons_ne_nil one []) left right _ (.ok _)).1 hk

end ParserAlgebra
