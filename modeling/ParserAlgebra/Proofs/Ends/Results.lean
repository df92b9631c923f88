import ParserAlgebra.Proofs.Ends.Rows
import ParserAlgebra.Proofs.Ensures

/-!
# Proofs/Ends/Results — what the results at one cursor are read as

    no match               nothing is read             result of nothing        failure
    v, and on to d         v, and on to d              result of (v, d)         a match

A match is read as what it says, and nothing else is: what is read tells whether there was a match,
and of what (`matches_iff_ends`, `declines_iff_ends`).  A parser may also return something else
altogether, which cannot be read.  Where it does not, what is asked of its values is asked of all
matches at that cursor (`Parser.YieldsAt`), and a mapper behind it can be followed from there.
-/

namespace ParserAlgebra

variable {P : Type}

open Value Run

/-- A match was read off a success. -/
theorem exists_success_of_ends {x v d : Value P}
    (h : Ends (fun _ => (x.readMatch : Run Unit P _)) (.ok (some (v, d)))) :
    ∃ k, x = .success v d k := by
  obtain ⟨m, hm⟩ := h
  exact ensures_readMatch x () _ (hm m (Nat.le_refl m)) v d rfl

/-- Nothing is read only off what is false. -/
theorem isTruthy_of_ends_none {x : Value P}
    (h : Ends (fun _ => (x.readMatch : Run Unit P _)) (.ok none)) : x.isTruthy = false := by
  refine Bool.eq_false_iff.2 fun hx => ?_
  have something : (x.readMatch : Run Unit P _).Ensures (· ≠ none) := by
    rw [readMatch, if_pos hx]
    exact (ensures_ofExcept _).bind fun v _ => (ensures_ofExcept _).bind fun n _ =>
      ensures_pure (Option.some_ne_none (v, n))
  obtain ⟨m, hm⟩ := h
  exact something () _ (hm m (Nat.le_refl m)) rfl

variable [Primitive P] {rules : String → Option (Value P)} {p q : Parser P} {c d v : Value P}

/-! ## Matches and no matches -/

/-- **A parser matches where that is read.** -/
theorem matches_iff_ends :
    Matches rules p c v d ↔ Ends (reading rules p c) (.ok (some (v, d))) := by
  refine ⟨fun ⟨k, hk⟩ => hk.bind (comes_pure _), fun h => ?_⟩
  obtain ⟨e, _, ⟨⟩⟩ | ⟨x, hx, hm⟩ := (ends_bind (grows_call _ _)).1 h
  obtain ⟨k, rfl⟩ := exists_success_of_ends hm
  exact ⟨k, hx⟩

/-- **It declines where nothing is read.** -/
theorem declines_iff_ends : Declines rules p c ↔ Ends (reading rules p c) (.ok none) := by
  constructor
  · rintro ⟨x, hx, hr⟩
    refine hr.bind ?_
    simp only [readMatch_falsy hx]
    exact comes_pure none
  · intro h
    obtain ⟨e, _, ⟨⟩⟩ | ⟨x, hx, hm⟩ := (ends_bind (grows_call _ _)).1 h
    exact ⟨x, isTruthy_of_ends_none hm, hx⟩

/-- **What goes on from a match ends in a success** where it does so from one that there is. -/
theorem ends_success_behind {f : Value P × Value P → Nat → Run Unit P (Value P)} {k : Identity} :
    Ends (fun n => reading rules p c n >>= fun m => m.elim (pure .failure) fun x => f x n)
      (.ok (.success v d k)) ↔
      ∃ w e, Matches rules p c w e ∧ Ends (f (w, e)) (.ok (.success v d k)) := by
  refine (ends_bind grows_reading).trans ⟨?_, ?_⟩
  · rintro (⟨_, _, ⟨⟩⟩ | ⟨m, hm, hr⟩)
    obtain _ | ⟨w, e⟩ := m
    · cases ends_pure_iff.1 hr
    · exact ⟨w, e, matches_iff_ends.2 hm, hr⟩
  · rintro ⟨w, e, hw, hr⟩
    exact .inr ⟨_, matches_iff_ends.1 hw, hr⟩

/-! ## Results at one cursor -/

variable {Q : Value P → Prop}

/-- **At a cursor, the result is no match or a match** with a value that satisfies `Q`. -/
def Parser.YieldsAt (rules : String → Option (Value P)) (Q : Value P → Prop) (p : Parser P)
    (c : Value P) : Prop :=
  ∀ x, Comes (fun n => p.run (quiet rules) n c) x →
    x.isTruthy = false ∨ ∃ v d k, x = .success v d k ∧ Q v

/-- What a parser matches there is all that it yields. -/
theorem Matches.yieldsAt (h : Matches rules p c v d) (hv : Q v) : p.YieldsAt rules Q c := by
  intro x hx
  obtain ⟨k, hk⟩ := h
  obtain rfl := hk.unique hx
  exact .inr ⟨v, d, k, rfl, hv⟩

namespace Parser.YieldsAt

variable (h : p.YieldsAt rules Q c)

include h

/-- The value of a match. -/
theorem of_matches (hm : Matches rules p c v d) : Q v := by
  obtain ⟨k, hk⟩ := hm
  obtain hx | ⟨w, e, l, heq, hw⟩ := h _ hk
  · contradiction
  · cases heq
    exact hw

/-- What is read is one of its values. -/
theorem of_ends (hm : Ends (reading rules p c) (.ok (some (v, d)))) : Q v :=
  h.of_matches (matches_iff_ends.2 hm)

/-- **Where all results can be read, only the parser itself raises.** -/
theorem raises_iff {e : Error P} :
    Raises (reading rules p c) e ↔ Raises (fun n => p.run (quiet rules) n c) e := by
  refine (ends_bind (grows_call _ _)).trans ⟨?_, fun he => .inl ⟨e, he, rfl⟩⟩
  rintro (⟨e', he, ⟨⟩⟩ | ⟨x, hx, he⟩)
  · exact he
  · obtain hx | ⟨v, d, k, rfl, _⟩ := h x hx
    · rw [readMatch_falsy hx] at he
      cases ends_pure_iff.1 he
    · cases ends_pure_iff.1 he

end Parser.YieldsAt

/-! ## Results that are made of readings -/

/-- **The result that a reading stands for.** -/
def Reading.result (m : Reading P (Value P)) : Value P :=
  m.elim .failure fun x => .success x.1 x.2 none

section

variable {r t : Nat → Run Unit P (Reading P (Value P))} (hr : Grows r)

include hr

omit [Primitive P] in
theorem Grows.result : Grows fun n => r n >>= fun m => pure m.result :=
  hr.bind fun _ => grows_const _

omit [Primitive P] in
/-- Readings that end alike stand for results that end alike. -/
theorem Alike.result (ht : Grows t) (h : Alike r t) :
    Alike (fun n => r n >>= fun m => pure m.result) fun n => t n >>= fun m => pure m.result :=
  h.bind hr ht fun _ _ => .refl _

variable (h : Alike (fun n => p.run (quiet rules) n c) fun n => r n >>= fun m => pure m.result)

include h

/-- A parser whose results stand for a reading is read as that. -/
theorem alike_reading_of_result : Alike (reading rules p c) r := by
  refine (h.bind (grows_call _ _) hr.result fun _ _ => .refl _).trans (.of_eq fun n => ?_)
  rw [bind_assoc]
  refine (bind_congr fun m => ?_).trans (bind_pure (r n))
  cases m <;> rfl

/-- So its results stand for what it is read as. -/
theorem alike_run_result : Alike (fun n => p.run (quiet rules) n c) fun n =>
    reading rules p c n >>= fun m => pure m.result :=
  h.trans ((alike_reading_of_result hr h).symm.result hr grows_reading)

/-- What such a parser comes to. -/
theorem comes_of_result {x : Value P} (hx : Comes (fun n => p.run (quiet rules) n c) x) :
    x = .failure ∨ ∃ v d, x = .success v d none ∧ Ends r (.ok (some (v, d))) := by
  obtain ⟨e, _, ⟨⟩⟩ | ⟨m, hm, hx⟩ := (ends_bind hr).1 ((h (.ok x)).1 hx)
  obtain rfl := Except.ok.inj (ends_pure_iff.1 hx)
  match m, hm with
  | none, _ => exact .inl rfl
  | some (v, d), hm => exact .inr ⟨v, d, rfl, hm⟩

/-- Such a parser yields what the reading produces. -/
theorem yieldsAt_of_result (hQ : ∀ v d, Ends r (.ok (some (v, d))) → Q v) :
    p.YieldsAt rules Q c := by
  intro x hx
  obtain rfl | ⟨v, d, rfl, hm⟩ := comes_of_result hr h hx
  · exact .inl rfl
  · exact .inr ⟨v, d, none, rfl, hQ v d hm⟩

/-- It raises what is raised where it is read. -/
theorem raises_of_result {e : Error P} :
    Raises (fun n => p.run (quiet rules) n c) e ↔ Raises r e := by
  refine (h (.error e)).trans ((ends_bind hr).trans ⟨?_, fun he => .inl ⟨e, he, rfl⟩⟩)
  rintro (⟨e', he, ⟨⟩⟩ | ⟨m, _, he⟩)
  · exact he
  · cases ends_pure_iff.1 he

end

/-! ## Mappers -/

section

variable {m : Mapper P} {g : Value P → Value P} (hp : p.YieldsAt rules Q c)

include hp

/-- **A mapper goes on from what is read.** -/
theorem alike_run_mapper : Alike (fun n => (p.mapped m).run (quiet rules) n c) fun n =>
    reading rules p c n >>= fun k => k.elim (pure .failure) fun x =>
      Body.runMapper (call (quiet rules) n) m (.success x.1 x.2 none) := by
  refine (alike_body _ c).trans ?_
  simp only [reading, bind_assoc]
  refine (Alike.refl fun n => p.run (quiet rules) n c).bind (grows_call _ _) (grows_call _ _) ?_
  intro x hx
  refine .of_eq fun n => ?_
  obtain hfalse | ⟨v, d, k, rfl, _⟩ := hp x hx
  · rw [readMatch_falsy hfalse, if_neg (by simp [hfalse])]
    rfl
  · rfl

/-- **What a mapper answers is unwrapped**, if it cannot refuse and does not raise. -/
theorem alike_run_mapped_at (hm : m.isFallible = false)
    (hg : ∀ v, Q v → ∃ x, Comes (fun n => m.apply (call (quiet rules) n) v.components) x ∧
      x.unwrap = g v) : Alike (fun n => (p.mapped m).run (quiet rules) n c) fun n =>
    (reading rules p c n).onValue g >>= fun k => pure k.result := by
  refine (alike_run_mapper hp).trans ?_
  simp only [onValue, bind_assoc]
  refine (Alike.refl (reading rules p c)).bind grows_reading grows_reading fun k hk => ?_
  obtain _ | ⟨v, d⟩ := k
  · exact .refl _
  · obtain ⟨y, hy, heq⟩ := hg v (hp.of_ends hk)
    have answered : Comes (fun n => Body.runMapper (call (quiet rules) n) m (.success v d none))
        (.success (g v) d none) := by
      rw [← heq]
      refine (comes_pure v).bind (hy.bind ?_)
      simp only [hm]
      exact comes_pure _
    exact (Alike.of_comes answered).trans (.of_eq fun n => rfl)

end

end ParserAlgebra
