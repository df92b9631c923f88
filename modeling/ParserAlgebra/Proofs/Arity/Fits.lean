import Mathlib.Data.List.Forall2
import ParserAlgebra.Parser.Combinators
import ParserAlgebra.Proofs.WellShaped

/-!
# Proofs/Arity/Fits — values that have as many components as declared

    pᵢ produces vᵢ, and vᵢ fits pᵢ's arity   ⟹   concat v₁ … vₙ fits the sum of the arities

An arity is declared when a parser is put together, and may be written as any number; a value is
produced when it runs.  The two are compared here, for each way in which a combinator computes its
arity from those of its operands: all added up (`fits_concat`), the one they share (`fits_shared`),
and at least as many as a mapper requires (`requires_le`).
-/

namespace ParserAlgebra

variable {P : Type}

/-- **Well-shaped, and with as many components as declared**, if anything is declared. -/
structure Value.Fits (declared : Option (Value P)) (v : Value P) : Prop where
  wellShaped : v.WellShaped
  counts : ∀ n, declared = some n → n.isNumber (.int v.components.length) = true

open Value

/-- A value that is no composite is one component. -/
theorem fits_one {v : Value P} (h : v.isComposite = false) : v.Fits (some (.ofInt 1)) where
  wellShaped := wellShaped_of_isComposite h
  counts := by
    rintro n ⟨⟩
    rw [components_of_isComposite h]
    rfl

/-- Flat components fit their number. -/
theorem fits_tupleOf {xs : List (Value P)} (h : Flat xs) :
    (tupleOf xs).Fits (some (.ofInt xs.length)) where
  wellShaped := wellShaped_tupleOf h
  counts := by
    rintro n ⟨⟩
    rw [components_tupleOf h]
    simp [isNumber, number?, ofInt]

/-- The empty composite has no components. -/
theorem fits_zero : (composite [] none : Value P).Fits (some (.ofInt 0)) := fits_tupleOf flat_nil

/-- Numbering leaves the number of components alone. -/
theorem Value.Fits.numbered {σ : Type} [Supply σ] {declared : Option (Value P)} {v : Value P}
    (h : v.Fits declared) (s : σ) : (v.numbered s).1.Fits declared where
  wellShaped := h.wellShaped.numbered s
  counts n hn := by
    rw [length_components_numbered]
    exact h.counts n hn

/-- A value that is a number is one under its number. -/
theorem isNumber_iff {n : Number} {x : Value P} :
    x.isNumber n = true ↔ ∃ m, x.number? = some m ∧ n.same m = true := by
  cases h : x.number? <;> simp [isNumber, h]

/-! ## Arities added up -/

/-- **The sum of the arities is the number of all components.** -/
theorem same_sumArity {ps : List (Parser P)} {vs : List (Value P)}
    (h : List.Forall₂ (fun p v => v.Fits p.declared) ps vs) {n : Number}
    (hn : Parser.sumArity ps = some n) :
    n.same (.int (vs.flatMap components).length) = true := by
  induction h generalizing n with
  | nil =>
    cases hn
    rfl
  | @cons p v ps vs hv _ ih =>
    unfold Parser.sumArity at hn
    split at hn
    · rename_i d m hd hm
      cases hn
      obtain ⟨k, hk, hs⟩ := isNumber_iff.1 (hv.counts d hd)
      have hlen : (((v :: vs).flatMap components).length : Int) =
          v.components.length + (vs.flatMap components).length := by simp
      rw [hk, Option.getD_some, hlen]
      exact Number.same_add (Number.same_symm hs) (ih hm)
    · contradiction

/-- **The components of all values fit the sum of the arities.** -/
theorem fits_concat {ps : List (Parser P)} {vs : List (Value P)}
    (h : List.Forall₂ (fun p v => v.Fits p.declared) ps vs) :
    (concat vs).Fits ((Parser.sumArity ps).map ofNumber) := by
  have hws : ∀ v ∈ vs, v.WellShaped := by
    intro v hv
    obtain ⟨i, hi, rfl⟩ := List.mem_iff_getElem.1 hv
    exact (h.get (h.length_eq ▸ hi) hi).wellShaped
  refine ⟨wellShaped_concat hws, fun n hn => ?_⟩
  obtain ⟨m, hm, rfl⟩ := Option.map_eq_some_iff.1 hn
  rw [components_concat hws]
  exact isNumber_iff.2 ⟨m, number?_ofNumber m, Number.same_symm (same_sumArity h hm)⟩

/-! ## The arity that all share -/

/-- **What fits one of several parsers that do not differ fits the arity they share.** -/
theorem fits_shared {ps : List (Parser P)}
    (hh : Value.allHashable (Parser.knownArities ps) = true)
    (ha : Parser.agree (Parser.knownArities ps) = true) {p : Parser P} (hp : p ∈ ps) {v : Value P}
    (hv : v.Fits p.declared) : v.Fits (Parser.sharedArity ps) := by
  refine ⟨hv.wellShaped, fun n hn => ?_⟩
  unfold Parser.sharedArity at hn
  split at hn
  · rename_i hall
    obtain ⟨d, hd⟩ := Option.isSome_iff_exists.1 (List.all_eq_true.1 hall p hp)
    obtain ⟨ns, hns⟩ := List.head?_eq_some_iff.1 hn
    have hmem := Parser.mem_knownArities.2 ⟨p, hp, hd⟩
    have hcount := hv.counts d hd
    rw [hns] at hh ha hmem
    rcases List.mem_cons.1 hmem with rfl | hmem
    · exact hcount
    · obtain ⟨m, hm, hs⟩ := isNumber_iff.1 hcount
      have heq : n.equals d = true := List.all_eq_true.1 ha d hmem
      rw [allHashable, Bool.and_eq_true] at hh
      obtain ⟨k, hk, hkm⟩ := exists_number_of_equals heq hh.1 hm
      exact isNumber_iff.2 ⟨k, hk, Number.same_trans hs (Number.same_symm hkm)⟩
  · contradiction

/-! ## What a mapper requires -/

/-- **A mapper that was admitted never lacks components.** -/
theorem requires_le [Labelled P] {p : Parser P} {m : Mapper P} (h : p.checkArity m = .ok ())
    {n v : Value P} (hn : p.declared = some n) (hv : v.Fits p.declared) :
    m.requires ≤ v.components.length := by
  obtain ⟨k, hk, hs⟩ := isNumber_iff.1 (hv.counts n hn)
  simp only [Parser.checkArity, hn, hk] at h
  split at h
  · cases ht : p.titled <;> rw [ht] at h <;> contradiction
  · rename_i hlt
    have hle := Number.le_of_same (Number.same_symm hs) (by simpa using hlt)
    omega

end ParserAlgebra
