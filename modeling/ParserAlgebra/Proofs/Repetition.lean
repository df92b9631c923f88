import ParserAlgebra.Catalogue.Readers
import ParserAlgebra.Proofs.Answers

/-!
# Proofs/Repetition — a repetition takes the maximal run, and ends

    c = c₀ ──v₀──▸ c₁ ──v₁──▸ … ──vₖ₋₁──▸ cₖ        no match at cₖ

From each cursor on a stream that a parser progresses on there is one streak of its matches.  Its
repetition takes all of it: it collects the values, each whole and in order, and goes on from where
the parser declined.  So the parser itself never matches behind its repetition.
-/

namespace ParserAlgebra

variable {P : Type} [Primitive P] {rules : String → Option (Value P)}

/-- **The repetitions of `p` take `run`** from `c` to `e`, and collect its values.

The run is the only one.  With any number `k` of calls that exceeds its length the loop is through,
and with fewer it is not, so it makes one call more than there are matches. -/
structure Repeats (rules : String → Option (Value P)) (p : Parser P) (f : Callable P)
    (collect : List (Value P) → Value P) (c : Value P) (run : List (Value P × Value P))
    (e : Value P) : Prop where
  maximal : Streak (Matches rules p) (Declines rules p) c run e
  unique : ∀ run' e', Streak (Matches rules p) (Declines rules p) c run' e' →
    run' = run ∧ e' = e
  calls : ∃ m, ∀ n ≥ m, ∀ k,
    (Body.runMany (fun p c => call (quiet rules) n (.parser p) [c]) p k c :
      Run Unit P _).outcome =
        if run.length < k then .ok (Streak.values run, e) else .error .exhausted
  repeat0 : Comes (fun n => (p.repeat0 f).run (quiet rules) n c)
    (.success (collect (Streak.values run)) e none)
  repeat1_of_nil : run = [] → Comes (fun n => (p.repeat1 f).run (quiet rules) n c) .failure
  repeat1 : run ≠ [] → Comes (fun n => (p.repeat1 f).run (quiet rules) n c)
    (.success (collect (Streak.values run)) e none)
  behind : ∀ q, Parser.sequence [p.repeat0 f, p] = .ok q →
    Comes (fun n => q.run (quiet rules) n c) .failure

section

variable {p q : Parser P} {f : Callable P} {c e : Value P} {run : List (Value P × Value P)}
  {x : Value P}

/-- **A parser does not match behind its repetition.** -/
theorem comes_behind_repeat0 (h : Streak (Matches rules p) (Declines rules p) c run e)
    (hf : Returns rules f [.list (Streak.values run) none] (.ok x))
    (hq : Parser.sequence [p.repeat0 f, p] = .ok q) :
    Comes (fun n => q.run (quiet rules) n c) .failure := by
  rw [Parser.eq_sequenced_of_sequence hq]
  have repetition : Matches rules (p.repeat0 f) c x e := matches_of_body (comes_repeat0 h hf)
  exact comes_call (comes_pair_failure repetition h.stopped)

/-- A repetition takes whatever streak there is. -/
theorem Streak.repeats {collect : List (Value P) → Value P}
    (h : Streak (Matches rules p) (Declines rules p) c run e)
    (hf : Returns rules f [.list (Streak.values run) none] (.ok (collect (Streak.values run)))) :
    Repeats rules p f collect c run e where
  maximal := h
  unique _ _ k := h.unique_matches k
  calls := h.rounds
  repeat0 := comes_call (comes_repeat0 h hf)
  repeat1_of_nil hrun := by
    subst hrun
    cases h with
    | nil h => exact comes_call (comes_repeat1_failure h)
  repeat1 hrun := by
    cases h with
    | nil => contradiction
    | cons h hs => exact comes_call (comes_repeat1 h hs hf)
  behind _ hq := comes_behind_repeat0 h hf hq

end

/-- **A repetition takes exactly the maximal run and ends.**  Of a parser that progresses on the
stream there is one run of matches from each of its cursors, which has no more matches than there
are tokens left; its repetitions take that run, whatever collects the values. -/
theorem repeats_maximal_run {p : Parser P} {f : Callable P} {c : Cursor (Value P)}
    {values : Set (Value P)} {collect : List (Value P) → Value P} (hc : c.Readable)
    (hp : Progresses rules c p values)
    (hf : ∀ vs, (∀ v ∈ vs, v ∈ values) → Returns rules f [.list vs none] (.ok (collect vs)))
    (i : Identity) :
    ∃ run e j, c.Along e ∧ run.length ≤ c.remaining.length ∧
      Repeats rules p f collect (.cursor c i) run (.cursor e j) := by
  obtain ⟨run, e, j, he, hs, hvalues, hle⟩ :=
    exists_streak_along hp.answers hp.advances hc.along i
  exact ⟨run, e, j, he, hle, hs.repeats (hf _ hvalues)⟩

/-! ## Two letters at a time -/

section

open ParserAlgebra.Parser

/-- Two tokens, whatever they are. -/
abbrev couple : Parser Catalogue := sequenced [one, one]

/-- A cursor on `zabcde`, behind the first letter. -/
abbrev fiveLetters : Cursor (Value Catalogue) :=
  .indexed ⟨some 1, true⟩ [.ofText "z"]
    [.ofText "a", .ofText "b", .ofText "c", .ofText "d", .ofText "e"] false

/-- Couples of letters are repeated twice, and the fifth letter is left. -/
theorem couples_repeat_maximal_run :
    let rules : String → Option (Value Catalogue) := fun _ => none
    let letters : Set (Value Catalogue) := {t | t ∈ fiveLetters.tokens}
    let couples : Set (Value Catalogue) := {x | ∃ v ∈ letters, ∃ w ∈ letters, x = .concat [v, w]}
    fiveLetters.Readable ∧ Progresses rules fiveLetters couple couples ∧
    (∀ vs, (∀ v ∈ vs, v ∈ couples) →
      Returns rules gathered [.list vs none] (.ok (.list vs none))) ∧
    ∃ run e j, fiveLetters.Along e ∧ run.length ≤ 5 ∧
      Repeats rules couple gathered (.list · none) (.cursor fiveLetters (some 2)) run
        (.cursor e j) ∧
      Streak.values run = [.composite [.ofText "a", .ofText "b"] none,
        .composite [.ofText "c", .ofText "d"] none] := by
  intro rules letters couples
  have readable : fiveLetters.Readable := rfl
  have progresses : Progresses rules fiveLetters couple couples :=
    progresses_one.joined progresses_one
  have gathers (vs : List (Value Catalogue)) (_ : ∀ v ∈ vs, v ∈ couples) :
      Returns rules gathered [.list vs none] (.ok (.list vs none)) := returns_gathered vs
  obtain ⟨run, e, j, he, hle, hrun⟩ := repeats_maximal_run readable progresses gathers (some 2)
  refine ⟨readable, progresses, gathers, run, e, j, he, hle, hrun, ?_⟩
  have twice : Streak (Matches rules couple) (Declines rules couple)
      (.cursor fiveLetters (some 2)) [_, _] _ :=
    .cons ((matches_one rfl rfl rfl _).pair (matches_one rfl rfl rfl _))
      (.cons ((matches_one rfl rfl rfl _).pair (matches_one rfl rfl rfl _))
        (.nil ((matches_one rfl rfl rfl _).pair_declines (declines_one rfl _))))
  rw [(hrun.maximal.unique_matches twice).1.symm]
  rw [concat_pair rfl rfl, concat_pair rfl rfl]
  rfl

end

end ParserAlgebra
