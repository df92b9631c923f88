import ParserAlgebra.Proofs.Ends.Results

/-!
# Proofs/Ends/Filters — what a filtered parser is read as

    p reads x, and on to d        the components of x        if the predicate holds of them
                                                             x rebuilt, and on to d

A predicate is called with the components of what was read, and what was read is put together again
from them if it holds (`sieve`).  So a filtered parser is read as its operand is, going on with the
sieve from each match (`alike_run_filtered`), and how it ends is settled by how the two end.
-/

namespace ParserAlgebra

variable {P : Type}

open Value Run

/-! ## Predicates -/

/-- **A match that something is asked about**: it is rebuilt from its components if that holds of
them. -/
def Run.sieve (r : List (Value P) → Run Unit P Bool) (x : Value P × Value P) :
    Run Unit P (Reading P (Value P)) :=
  r x.1.components >>= fun holds =>
    pure (if holds then some ((tupleOf x.1.components).unwrap, x.2) else none)

section

variable {r t : Nat → List (Value P) → Run Unit P Bool} {x : Value P × Value P}

theorem Grows.sieve (hr : Grows fun n => r n x.1.components) : Grows fun n => sieve (r n) x :=
  hr.bind fun _ => grows_const _

theorem Alike.sieve (hr : Grows fun n => r n x.1.components)
    (ht : Grows fun n => t n x.1.components)
    (h : Alike (fun n => r n x.1.components) fun n => t n x.1.components) :
    Alike (fun n => sieve (r n) x) fun n => sieve (t n) x :=
  h.bind hr ht fun _ _ => .refl _

end

variable [Primitive P] {rules : String → Option (Value P)}

section

variable (rules)

/-- **Whether a predicate holds** of some components. -/
def asked (f : Callable P) (n : Nat) (xs : List (Value P)) : Run Unit P Bool :=
  call (quiet rules) n f xs >>= fun b => pure b.isTruthy

/-- **What a predicate makes of a match**, as a result. -/
def sifted (f : Callable P) (x d : Value P) (n : Nat) : Run Unit P (Value P) :=
  call (quiet rules) n f x.components >>= fun b => pure (if b.isTruthy then
    .success (tupleOf x.components).unwrap d none else .failure)

end

variable {f : Callable P} {xs : List (Value P)} {p : Parser P} {c d v : Value P}

theorem grows_asked : Grows fun n => asked rules f n xs :=
  (grows_call _ _).bind fun _ => grows_const _

/-- A predicate holds or not by the truth of what it answers. -/
theorem comes_asked_iff {holds : Bool} : Comes (fun n => asked rules f n xs) holds ↔
    ∃ b, Returns rules f xs (.ok b) ∧ b.isTruthy = holds := by
  rw [← ends_ok_iff]
  refine (ends_bind (grows_call f xs)).trans ⟨?_, ?_⟩
  · rintro (⟨_, _, ⟨⟩⟩ | ⟨b, hb, ha⟩)
    exact ⟨b, returns_iff_ends.2 hb, (Except.ok.inj (ends_pure_iff.1 ha)).symm⟩
  · rintro ⟨b, hb, rfl⟩
    exact .inr ⟨b, returns_iff_ends.1 hb, comes_pure _⟩

theorem sieve_result (x : Value P × Value P) (n : Nat) :
    (sieve (asked rules f n) x >>= fun m => pure m.result) = sifted rules f x.1 x.2 n := by
  simp only [sieve, asked, sifted, bind_assoc, LawfulMonad.pure_bind]
  refine bind_congr fun b => ?_
  cases b.isTruthy <;> rfl

theorem ends_sifted {a : Except (Error P) (Value P)} : Ends (sifted rules f v d) a ↔
    (∃ e, Returns rules f v.components (.error e) ∧ a = .error e) ∨
      ∃ b, Returns rules f v.components (.ok b) ∧ a = .ok (if b.isTruthy then
        .success (tupleOf v.components).unwrap d none else .failure) := by
  simp only [returns_iff_ends]
  exact (ends_bind (grows_call _ _)).trans (or_congr_right (exists_congr fun b =>
    and_congr_right fun _ => ends_pure_iff))

/-! ## Filtered parsers -/

variable {Q : Value P → Prop} (hp : p.YieldsAt rules Q c)

include hp

/-- What a filtered parser makes of what its operand matches. -/
theorem alike_run_sifted : Alike (fun n => (p.mapped (.filter f)).run (quiet rules) n c) fun n =>
    reading rules p c n >>= fun k =>
      k.elim (pure .failure) fun x => sifted rules f x.1 x.2 n := by
  refine (alike_run_mapper hp).trans (.of_eq fun n => bind_congr fun k => ?_)
  match k with
  | none => rfl
  | some (x, d) =>
    change (call (quiet rules) n f x.components >>= _) >>= _ = sifted rules f x d n
    rw [bind_assoc]
    refine bind_congr fun b => ?_
    cases b.isTruthy <;> rfl

/-- **How a filtered parser ends**: as its operand, unless that matches, and else as the predicate
has it. -/
theorem ends_filtered_iff {a : Except (Error P) (Value P)} :
    Ends (fun n => (p.mapped (.filter f)).run (quiet rules) n c) a ↔
      (∃ e, Raises (fun n => p.run (quiet rules) n c) e ∧ a = .error e) ∨
        Declines rules p c ∧ a = .ok .failure ∨
          ∃ v d, Matches rules p c v d ∧ Ends (sifted rules f v d) a := by
  refine (alike_run_sifted hp a).trans ((ends_bind grows_reading).trans (or_congr ?_ ⟨?_, ?_⟩))
  · exact exists_congr fun e => and_congr_left fun _ => hp.raises_iff
  · rintro ⟨_ | ⟨v, d⟩, hm, ha⟩
    · exact .inl ⟨declines_iff_ends.2 hm, ends_pure_iff.1 ha⟩
    · exact .inr ⟨v, d, matches_iff_ends.2 hm, ha⟩
  · rintro (⟨hno, rfl⟩ | ⟨v, d, hm, ha⟩)
    · exact ⟨none, declines_iff_ends.1 hno, comes_pure _⟩
    · exact ⟨_, matches_iff_ends.1 hm, ha⟩

/-- **A filtered parser goes on with the sieve** from what its operand matches. -/
theorem alike_run_filtered :
    Alike (fun n => (p.mapped (.filter f)).run (quiet rules) n c) fun n =>
      (reading rules p c n).refined (sieve (asked rules f n)) >>= fun m => pure m.result := by
  refine (alike_run_sifted hp).trans (.of_eq fun n => ?_)
  simp only [refined, bind_assoc]
  refine bind_congr fun k => ?_
  cases k with
  | none => rfl
  | some x => exact (sieve_result x n).symm

theorem alike_reading_filtered : Alike (reading rules (p.mapped (.filter f)) c) fun n =>
    (reading rules p c n).refined (sieve (asked rules f n)) :=
  alike_reading_of_result (grows_reading.refined fun _ => grows_asked.sieve) (alike_run_filtered hp)

/-- It matches where its operand matches and the predicate holds. -/
theorem matches_filtered_iff : Matches rules (p.mapped (.filter f)) c v d ↔
    ∃ x b, Matches rules p c x d ∧ Returns rules f x.components (.ok b) ∧ b.isTruthy = true ∧
      v = (tupleOf x.components).unwrap := by
  constructor
  · rintro ⟨k, hk⟩
    obtain ⟨_, _, ⟨⟩⟩ | ⟨_, ⟨⟩⟩ | ⟨x, e, hx, hr⟩ := (ends_filtered_iff hp).1 (ends_ok_iff.2 hk)
    obtain ⟨_, _, ⟨⟩⟩ | ⟨b, hb, heq⟩ := ends_sifted.1 hr
    split at heq
    · rename_i htrue
      cases heq
      exact ⟨x, b, hx, hb, htrue, rfl⟩
    · cases heq
  · rintro ⟨x, b, hx, hb, htrue, rfl⟩
    have passed : Ends (sifted rules f x d) (.ok (.success (tupleOf x.components).unwrap d none)) :=
      ends_sifted.2 (.inr ⟨b, hb, by rw [if_pos htrue]⟩)
    exact ⟨none, ends_ok_iff.1 ((ends_filtered_iff hp).2 (.inr (.inr ⟨x, d, hx, passed⟩)))⟩

end ParserAlgebra
