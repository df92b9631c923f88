import ParserAlgebra.Proofs.Ends.Yields

/-!
# Proofs/Ends/Choices — what an ordered choice is read as

    choice (q :: qs)  =  q, otherwise choice qs            p, followed by (q, otherwise r)
                                                              ends as
                                                           (p, followed by q), otherwise
                                                           (p, followed by r)

The branches of an alternative are tried from one cursor, and the first match is taken.  What stands
in front of a choice may be moved into its branches, although it is then read over and over: read
again it comes to what it came to before.  So the law holds for runs that end alike, and not as an
equation between runs with the same fuel.
-/

namespace ParserAlgebra

variable {P α β γ : Type}

open Value ParserAlgebra.Parser

/-! ## One reading or another -/

namespace Run

/-- **One reading, or another if it is no match.** -/
def otherwise (r t : Run Unit P (Reading P α)) : Run Unit P (Reading P α) :=
  r >>= fun m => m.elim t fun x => pure (some x)

variable {r t : Run Unit P (Reading P α)}

theorem otherwise_pure_none (r : Run Unit P (Reading P α)) : otherwise r (pure none) = r := by
  refine (bind_congr fun m => ?_).trans (bind_pure r)
  cases m <;> rfl

/-- What is made of either is made of both. -/
theorem otherwise_onValue (h : α → β) :
    otherwise (onValue h r) (onValue h t) = onValue h (otherwise r t) := by
  simp only [otherwise, onValue, bind_assoc, LawfulMonad.pure_bind]
  refine bind_congr fun m => ?_
  cases m <;> rfl

end Run

open Run

section

variable {r r' t t' : Nat → Run Unit P (Reading P α)}

theorem Grows.otherwise (hr : Grows r) (ht : Grows t) : Grows fun n => (r n).otherwise (t n) := by
  refine hr.bind fun m => ?_
  cases m with
  | none => exact ht
  | some x => exact grows_const _

theorem Alike.otherwise (hr : Grows r) (hr' : Grows r') (h : Alike r r') (k : Alike t t') :
    Alike (fun n => (r n).otherwise (t n)) fun n => (r' n).otherwise (t' n) := by
  refine h.bind hr hr' fun m _ => ?_
  cases m with
  | none => exact k
  | some x => exact .refl _

/-- **What stands in front of a choice may be moved into its branches.** -/
theorem alike_refined_otherwise {f g : Nat → α × Value P → Run Unit P (Reading P β)} (hr : Grows r)
    (hf : ∀ x, Grows fun n => f n x) :
    Alike (fun n => ((r n).refined (f n)).otherwise ((r n).refined (g n))) fun n =>
      (r n).refined fun x => (f n x).otherwise (g n x) := by
  simp only [Run.otherwise, Run.refined, bind_assoc]
  refine (Alike.refl r).bind hr hr fun m hm => ?_
  -- the second branch reads again what was read already
  have again : Alike (fun n => (r n).refined (g n)) fun n => m.elim (pure none) (g n) :=
    .of_ends_bind hm
  cases m with
  | none => exact again
  | some x => exact .otherwise (hf x) (hf x) (.refl _) again

/-- So may a reading that a choice is read behind. -/
theorem alike_followed_otherwise {f g : Nat → Value P → Run Unit P (Reading P β)} (hr : Grows r)
    (hf : ∀ d, Grows fun n => f n d) (join : α → β → γ) :
    Alike (fun n => ((r n).followed (f n) join).otherwise ((r n).followed (g n) join)) fun n =>
      (r n).followed (fun d => (f n d).otherwise (g n d)) join := by
  simp only [followed_eq_refined, ← otherwise_onValue]
  exact alike_refined_otherwise hr fun x => (hf x.2).onValue (join x.1)

end

/-! ## Ordered choices -/

/-- A match that was read is there, and no other reading is looked at. -/
theorem otherwise_readMatch {x : Value P} (hx : x.isTruthy = true)
    (t : Run Unit P (Reading P (Value P))) : Run.otherwise x.readMatch t = x.readMatch := by
  simp only [readMatch, if_pos hx]
  cases x.valueField with
  | error e => rfl
  | ok v => cases x.nextField <;> rfl

variable [Primitive P] {rules : String → Option (Value P)} {p : Parser P} {ps : List (Parser P)}
  {c : Value P}

section

variable (rules)

/-- **The result of parsers tried in turn**: the first that is no failure. -/
def firstResult (ps : List (Parser P)) (c : Value P) (n : Nat) : Run Unit P (Value P) :=
  Body.runFirst (fun p c => p.run (quiet rules) n c) ps c

/-- **What parsers tried in turn are read as**: the first match. -/
def choice (ps : List (Parser P)) (c : Value P) (n : Nat) : Run Unit P (Reading P (Value P)) :=
  firstResult rules ps c n >>= readMatch

end

theorem choice_cons : choice rules (p :: ps) c = fun n =>
    (reading rules p c n).otherwise (choice rules ps c n) := by
  funext n
  simp only [choice, firstResult, reading, Body.runFirst, Run.otherwise, bind_assoc]
  refine bind_congr fun x => ?_
  cases hx : x.isTruthy with
  | false =>
    rw [readMatch_falsy hx]
    rfl
  | true => exact (otherwise_readMatch hx _).symm

theorem choice_singleton : choice rules [p] c = reading rules p c := by
  funext n
  rw [choice_cons]
  exact otherwise_pure_none _

theorem grows_firstResult : Grows (firstResult rules ps c) :=
  fun _ _ h => Congruence.runFirst (C := below) (calls_below rules h) ps c

theorem grows_choice : Grows (choice rules ps c) :=
  grows_firstResult.bind fun _ => grows_const _

/-- **An alternative is read as the choice of its branches.** -/
theorem alike_reading_alternated : Alike (reading rules (alternated ps) c) (choice rules ps c) :=
  (alike_body (alternated ps) c).bind (grows_call _ _) grows_firstResult fun _ _ => .refl _

/-- **The result of an alternative stands for that reading**, if the results of its branches stand
for theirs. -/
theorem alike_run_alternated (h : ∀ p ∈ ps, Alike (fun n => p.run (quiet rules) n c) fun n =>
    reading rules p c n >>= fun m => pure m.result) :
    Alike (fun n => (alternated ps).run (quiet rules) n c) fun n =>
      choice rules ps c n >>= fun m => pure m.result := by
  refine (alike_body (alternated ps) c).trans ?_
  change Alike (firstResult rules ps c) _
  induction ps with
  | nil => exact .refl _
  | cons p ps ih =>
    obtain ⟨hp, hps⟩ := List.forall_mem_cons.1 h
    have grows : Grows fun n => reading rules p c n >>= fun m => pure m.result :=
      grows_reading.bind fun _ => grows_const _
    refine (hp.bind (grows_call _ _) grows (g := fun n x =>
      if x.isTruthy then pure x else firstResult rules ps c n) fun _ _ => .refl _).trans ?_
    simp only [choice_cons, Run.otherwise, bind_assoc, LawfulMonad.pure_bind]
    refine (Alike.refl _).bind grows_reading grows_reading fun m _ => ?_
    cases m with
    | none => exact ih hps
    | some x => exact .refl _

/-- So does that of an alternative of one parser, which is this parser. -/
theorem alike_run_alternative {a : Parser P} (ha : alternative ps = .ok a)
    (h : ∀ p ∈ ps, Alike (fun n => p.run (quiet rules) n c) fun n =>
      reading rules p c n >>= fun m => pure m.result) :
    Alike (fun n => a.run (quiet rules) n c) fun n =>
      choice rules ps c n >>= fun m => pure m.result := by
  obtain rfl | ⟨_, rfl⟩ := alternative_eq_ok ha
  · rw [choice_singleton]
    exact h a (List.mem_singleton_self a)
  · exact alike_run_alternated h

end ParserAlgebra
