import Mathlib.Data.List.Forall2
import ParserAlgebra.Call

/-!
# Proofs/Operators/Interchangeable — parsers that nothing tells apart

    p₁ ≈ q₁, …, pₙ ≈ qₙ   ⟹   sequence(p₁, …, pₙ) ≈ sequence(q₁, …, qₙ)

Two parsers can be put in each other's place if they have one name and one arity, and run alike:
with the same result, the same error and the same log, on every cursor.  What they were chained from
may differ.  The relation passes through a combinator that reads its operands only by running them,
and by their names and arities.
-/

namespace ParserAlgebra

variable {P : Type}

/-- **Parsers that nothing tells apart**, neither when a grammar is put together nor when it
runs. -/
structure Interchangeable [Primitive P] (p q : Parser P) : Prop where
  name_eq : p.name = q.name
  declared_eq : p.declared = q.declared
  run_eq : ∀ {σ : Type} [Supply σ] (ctx : Context P) (fuel : Nat) (c : Value P),
    (p.run ctx fuel c : Run σ P (Value P)) = q.run ctx fuel c

/-! ## Runs -/

section

variable {σ : Type}

/-- The log shows a parser by its name. -/
theorem logged_congr {p q : Parser P} (h : p.name = q.name) (handler : Handler) (c : Value P)
    (body : Run σ P (Value P)) : p.logged handler c body = q.logged handler c body := by
  unfold Parser.logged
  rw [h]

theorem runAll_congr {run : Parser P → Value P → Run σ P (Value P)} {ps qs : List (Parser P)}
    (h : List.Forall₂ (fun p q => ∀ c, run p c = run q c) ps qs) (c : Value P) :
    Body.runAll run ps c = Body.runAll run qs c := by
  induction h generalizing c with
  | nil => rfl
  | cons hp _ ih => simp only [Body.runAll, hp, ih]

theorem runFirst_congr {run : Parser P → Value P → Run σ P (Value P)} {ps qs : List (Parser P)}
    (h : List.Forall₂ (fun p q => ∀ c, run p c = run q c) ps qs) (c : Value P) :
    Body.runFirst run ps c = Body.runFirst run qs c := by
  induction h with
  | nil => rfl
  | cons hp _ ih => simp only [Body.runFirst, hp, ih]

end

namespace Interchangeable

variable [Primitive P] {p q : Parser P} {ps qs : List (Parser P)}

theorem refl (p : Parser P) : Interchangeable p p := ⟨rfl, rfl, fun _ _ _ => rfl⟩

/-- It is enough that the bodies do the same, given how calls are made. -/
theorem of_body (hn : p.name = q.name) (hd : p.declared = q.declared)
    (hb : ∀ {σ : Type} [Supply σ] (ctx : Context P) (fuel : Nat) (c : Value P),
      p.body.apply (call ctx fuel : Invoke σ P) fuel c = q.body.apply (call ctx fuel) fuel c) :
    Interchangeable p q := by
  refine ⟨hn, hd, fun ctx fuel c => ?_⟩
  match fuel with
  | 0 => rfl
  | fuel + 1 =>
    simp only [Parser.run, call, Parser.apply, hb ctx fuel c, logged_congr hn]

/-- What a parser was chained from is known to the operators alone. -/
theorem rechain (p : Parser P) (chain : Option (Junction × List (Parser P))) :
    Interchangeable { p with chain } p := of_body rfl rfl fun _ _ _ => rfl

theorem trans {r : Parser P} (h : Interchangeable p q) (k : Interchangeable q r) :
    Interchangeable p r :=
  ⟨h.name_eq.trans k.name_eq, h.declared_eq.trans k.declared_eq,
    fun ctx fuel c => (h.run_eq ctx fuel c).trans (k.run_eq ctx fuel c)⟩

/-! ## What operands come to -/

theorem map_name_eq (h : List.Forall₂ Interchangeable ps qs) :
    ps.map (·.name) = qs.map (·.name) := by
  induction h with
  | nil => rfl
  | cons hp _ ih => simp [hp.name_eq, ih]

theorem map_declared_eq (h : List.Forall₂ Interchangeable ps qs) :
    ps.map (·.declared) = qs.map (·.declared) := by
  induction h with
  | nil => rfl
  | cons hp _ ih => simp [hp.declared_eq, ih]

theorem knownArities_eq (h : List.Forall₂ Interchangeable ps qs) :
    Parser.knownArities ps = Parser.knownArities qs := by
  have known (rs : List (Parser P)) :
      Parser.knownArities rs = (rs.map (·.declared)).filterMap id := by
    rw [List.filterMap_map]
    rfl
  rw [known, known, map_declared_eq h]

theorem sharedArity_eq (h : List.Forall₂ Interchangeable ps qs) :
    Parser.sharedArity ps = Parser.sharedArity qs := by
  have all (rs : List (Parser P)) :
      rs.all (·.declared.isSome) = (rs.map (·.declared)).all (·.isSome) := by
    rw [List.all_map]
    rfl
  unfold Parser.sharedArity
  rw [all, all, map_declared_eq h, knownArities_eq h]

theorem sumArity_eq (h : List.Forall₂ Interchangeable ps qs) :
    Parser.sumArity ps = Parser.sumArity qs := by
  induction h with
  | nil => rfl
  | cons hp _ ih => rw [Parser.sumArity, Parser.sumArity, hp.declared_eq, ih]

theorem joinedName_eq (h : List.Forall₂ Interchangeable ps qs) (operator : String) :
    Parser.joinedName operator ps = Parser.joinedName operator qs := by
  have titles (rs : List (Parser P)) : rs.map Parser.title = (rs.map (·.name)).map (·.plain) := by
    rw [List.map_map]
    rfl
  unfold Parser.joinedName
  rw [titles, titles, map_name_eq h]

/-! ## Combinations -/

/-- Calls of interchangeable parsers are the same. -/
theorem calls_eq {σ : Type} [Supply σ] (h : List.Forall₂ Interchangeable ps qs) (ctx : Context P)
    (fuel : Nat) : List.Forall₂ (fun p q => ∀ c,
      (call ctx fuel (.parser p) [c] : Run σ P (Value P)) = call ctx fuel (.parser q) [c]) ps qs :=
  h.imp fun _ _ hp => hp.run_eq ctx fuel

/-- **Sequences of interchangeable parsers are interchangeable.** -/
theorem sequenced (h : List.Forall₂ Interchangeable ps qs) :
    Interchangeable (Parser.sequenced ps) (Parser.sequenced qs) := by
  refine of_body ?_ ?_ fun ctx fuel c => ?_
  · rw [Parser.sequenced, Parser.sequenced, joinedName_eq h]
  · rw [Parser.sequenced, Parser.sequenced, sumArity_eq h]
  · simp only [Parser.sequenced, Body.apply, runAll_congr (calls_eq h ctx fuel)]

/-- **And so are alternatives.** -/
theorem alternated (h : List.Forall₂ Interchangeable ps qs) :
    Interchangeable (Parser.alternated ps) (Parser.alternated qs) := by
  refine of_body ?_ ?_ fun ctx fuel c => ?_
  · rw [Parser.alternated, Parser.alternated, joinedName_eq h]
  · rw [Parser.alternated, Parser.alternated, sharedArity_eq h]
  · simp only [Parser.alternated, Body.apply, runFirst_congr (calls_eq h ctx fuel)]

end Interchangeable

end ParserAlgebra
