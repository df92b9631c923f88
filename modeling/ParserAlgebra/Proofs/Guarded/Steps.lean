import ParserAlgebra.Proofs.Comes
import ParserAlgebra.Proofs.Holds
import ParserAlgebra.Proofs.Unwrapped

/-!
# Proofs/Guarded/Steps — a parser with the end of the input behind it, step by step

    p at c: v, on to d        end of the input at d: no components        together: v, on to d

One particular run of the guarded parser is followed, from a given supply.  It calls the parser
with one unit less, so it halts where that halts; and it matches where that matches and the next
cursor is at the end, with the same value, since no components vanish behind it.
-/

namespace ParserAlgebra

variable {σ P : Type} [Supply σ] [Primitive P]

/-! ## A sequence -/

section

open ParserAlgebra.Parser Value

variable {rules : String → Option (Value P)} {n : Nat} {p q : Parser P} {c d e v w x : Value P}
  {s t u : σ} {j k : Identity}

/-- The members of a sequence in a row, with some fuel. -/
abbrev rowOf (σ : Type) [Supply σ] (rules : String → Option (Value P)) (n : Nat)
    (ps : List (Parser P)) (c : Value P) : Run σ P (Option (List (Value P) × Value P)) :=
  Body.runAll (fun p c => p.run (quiet rules) n c) ps c

/-- A sequence runs its members with one unit less. -/
theorem run_sequenced (ps : List (Parser P)) : ((sequenced ps).run (quiet rules) (n + 1) c :
    Run σ P _) = (do
      match ← rowOf σ rules n ps c with
      | some (vs, d) => return .success (concat vs) d none
      | none => return .failure) >>= Run.own := rfl

/-- A match goes on to the other members. -/
theorem gives_row_match {ps : List (Parser P)} {vs : List (Value P)}
    (h : (p.run (quiet rules) n c : Run σ P _).Gives s (.success v d j) t)
    (hs : (rowOf σ rules n ps d).Gives t (some (vs, e)) u) :
    (rowOf σ rules n (p :: ps) c).Gives s (some (v :: vs, e)) u :=
  h.bind (hs.bind (Run.gives_pure _ _))

/-- No match among the other members is none in a row. -/
theorem gives_row_later {ps : List (Parser P)}
    (h : (p.run (quiet rules) n c : Run σ P _).Gives s (.success v d j) t)
    (hs : (rowOf σ rules n ps d).Gives t none u) : (rowOf σ rules n (p :: ps) c).Gives s none u :=
  h.bind (hs.bind (Run.gives_pure _ _))

/-- No match ends the row. -/
theorem gives_row_none {ps : List (Parser P)}
    (h : (p.run (quiet rules) n c : Run σ P _).Gives s x t) (hx : x.isTruthy = false) :
    (rowOf σ rules n (p :: ps) c).Gives s none t := by
  refine h.bind ?_
  rw [readMatch_falsy hx]
  exact Run.gives_pure none t

theorem gives_sequenced {ps : List (Parser P)} {vs : List (Value P)}
    (h : (rowOf σ rules n ps c).Gives s (some (vs, e)) t) :
    ((sequenced ps).run (quiet rules) (n + 1) c : Run σ P _).Gives s
      ((success (concat vs) e none).numbered t).1 ((success (concat vs) e none).numbered t).2 := by
  have matched : (return .success (concat vs) e none : Run σ P _).Gives t
    (success (concat vs) e none) t := Run.gives_pure _ _
  rw [run_sequenced]
  exact (h.bind matched).bind (Run.gives_own _ _)

theorem gives_sequenced_none {ps : List (Parser P)} (h : (rowOf σ rules n ps c).Gives s none t) :
    ((sequenced ps).run (quiet rules) (n + 1) c : Run σ P _).Gives s .failure t := by
  have unmatched : (return .failure : Run σ P (Value P)).Gives t .failure t := Run.gives_pure _ _
  have owned := Run.gives_own (Value.failure : Value P) t
  rw [numbered_failure] at owned
  rw [run_sequenced]
  exact (h.bind unmatched).bind owned

/-- A sequence ends as its first member does if that halts. -/
theorem outcome_sequenced_of_halt {ps : List (Parser P)} {halt : Halt (Error P)}
    (h : ((p.run (quiet rules) n c : Run σ P _).start s).outcome = .error halt) :
    (((sequenced (p :: ps)).run (quiet rules) (n + 1) c : Run σ P _).start s).outcome =
      .error halt := by
  have row : ((rowOf σ rules n (p :: ps) c).start s).outcome = .error halt :=
    Run.outcome_bind_of_halt h _
  rw [run_sequenced]
  exact Run.outcome_bind_of_halt (Run.outcome_bind_of_halt row _) _

/-! ## The guard -/

theorem run_endOfInput (a : Cursor (Value P)) (i : Identity) :
    (endOfInput.run (quiet rules) (n + 1) (.cursor a i) : Run σ P _) =
      Run.own (if a.atEnd then .success (.composite [] none) (.cursor a i) none else .failure) :=
  rfl

variable (rules n) in
/-- At the end the guard matches, without components. -/
theorem gives_endOfInput {a : Cursor (Value P)} (h : a.atEnd = true) (i : Identity) (t : σ) :
    ∃ j e k u, (endOfInput.run (quiet rules) (n + 1) (.cursor a i) : Run σ P _).Gives t
      (.success (.composite [] j) e k) u := by
  have owned := Run.gives_own (.success (.composite [] none) (.cursor a i) none : Value P) t
  rw [numbered_success_none, numbered_composite_nil] at owned
  rw [run_endOfInput, if_pos h]
  exact ⟨_, _, _, _, owned⟩

/-- Elsewhere it does not. -/
theorem gives_endOfInput_none {a : Cursor (Value P)} (h : a.atEnd = false) (i : Identity) (t : σ) :
    (endOfInput.run (quiet rules) (n + 1) (.cursor a i) : Run σ P _).Gives t .failure t := by
  have owned := Run.gives_own (.failure : Value P) t
  rw [numbered_failure] at owned
  rw [run_endOfInput, if_neg (Bool.eq_false_iff.1 h)]
  exact owned

/-- The parser with the end of the input as a guard. -/
abbrev guarded (p : Parser P) : Parser P := sequenced [p, endOfInput]

/-- **At the end the guarded parser gives the same value**, as a sequence hands it on. -/
theorem gives_guarded {a : Cursor (Value P)} {i : Identity}
    (h : (p.run (quiet rules) (n + 1) c : Run σ P _).Gives s (.success v (.cursor a i) j) t)
    (ha : a.atEnd = true) (hv : v.unwrap = v) :
    ∃ (u : σ) (e : Value P) (k : Identity) (u' : σ),
      ((guarded p).run (quiet rules) (n + 2) c : Run σ P _).Gives s
        (.success (v.anew.numbered u).1 e k) u' := by
  obtain ⟨j', e, k, u, hguard⟩ := gives_endOfInput rules n ha i t
  have row : (rowOf σ rules (n + 1) [p, endOfInput] c).Gives s
      (some ([v, composite [] j'], e)) u :=
    gives_row_match h (gives_row_match hguard (Run.gives_pure _ _))
  have found := gives_sequenced row
  rw [concat_empty_right hv, numbered_success_none] at found
  exact ⟨u, _, _, _, found⟩

/-- In front of more tokens it does not match. -/
theorem gives_guarded_leftover {a : Cursor (Value P)} {i : Identity}
    (h : (p.run (quiet rules) (n + 1) c : Run σ P _).Gives s (.success v (.cursor a i) j) t)
    (ha : a.atEnd = false) :
    ((guarded p).run (quiet rules) (n + 2) c : Run σ P _).Gives s .failure t := by
  have guard : (rowOf σ rules (n + 1) [endOfInput] (.cursor a i)).Gives t none t :=
    gives_row_none (gives_endOfInput_none ha i t) rfl
  exact gives_sequenced_none (gives_row_later h guard)

end

end ParserAlgebra
