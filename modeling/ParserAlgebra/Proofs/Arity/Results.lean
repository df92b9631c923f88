import ParserAlgebra.Proofs.Arity.Fits
import ParserAlgebra.Proofs.Ensures

/-!
# Proofs/Arity/Results — what a parser makes of results that fit

    the operands' matches fit their arities   ⟹   the parser's matches fit its own

One lemma for each kind of body.  All of it is about streams without composites, and so is the
cursor after a match (`MatchFits`): otherwise the next token could be a composite of any shape.
-/

namespace ParserAlgebra

variable {σ P α : Type}

open Value

/-- Whatever stream the value is a cursor on has no composites. -/
def Value.OnFlat (c : Value P) : Prop := ∀ d i, c = .cursor d i → Flat d.tokens

/-- **If the result is a match, its value fits**, and the stream after it has no composites. -/
def Value.MatchFits (declared : Option (Value P)) (result : Value P) : Prop :=
  ∀ v n i, result = .success v n i → v.Fits declared ∧ n.OnFlat

theorem matchFits_success {declared : Option (Value P)} {v n : Value P} {i : Identity}
    (hv : v.Fits declared) (hn : n.OnFlat) : (success v n i).MatchFits declared := by
  rintro _ _ _ ⟨⟩
  exact ⟨hv, hn⟩

theorem matchFits_failure {declared : Option (Value P)} :
    (failure : Value P).MatchFits declared := fun _ _ _ h => by contradiction

theorem onFlat_cursor {d : Cursor (Value P)} {i : Identity} (h : Flat d.tokens) :
    (cursor d i).OnFlat := by
  rintro _ _ ⟨⟩
  exact h

/-! ## Numbering -/

section

variable [Supply σ]

theorem Value.OnFlat.numbered {c : Value P} (h : c.OnFlat) (s : σ) : (c.numbered s).1.OnFlat := by
  intro d i hd
  unfold Value.numbered at hd
  split at hd <;> try cases hd
  · exact h _ _ rfl
  · exact h _ _ rfl

theorem Value.MatchFits.numbered {declared : Option (Value P)} {r : Value P}
    (h : r.MatchFits declared) (s : σ) : (r.numbered s).1.MatchFits declared := by
  intro v n i hr
  obtain ⟨v', n', j, rfl, ⟨rfl, rfl⟩ | ⟨s', rfl, rfl⟩⟩ := exists_of_numbered_success hr
  · exact h _ _ _ rfl
  · obtain ⟨hv, hn⟩ := h _ _ _ rfl
    exact ⟨hv.numbered s, hn.numbered s'⟩

end

/-! ## Going on after a match -/

/-- What comes after a result that fits may count on a value that fits. -/
theorem Ensures.readMatch {r : Run σ P (Value P)} {declared : Option (Value P)}
    {f : Option (Value P × Value P) → Run σ P α} {Q : α → Prop}
    (h : r.Ensures (MatchFits declared)) (hnone : (f none).Ensures Q)
    (hsome : ∀ v n, v.Fits declared → n.OnFlat → (f (some (v, n))).Ensures Q) :
    (r >>= fun x => x.readMatch >>= f).Ensures Q := by
  refine h.bind fun x hx => (Run.ensures_readMatch x).bind fun m hm => ?_
  match m with
  | none => exact hnone
  | some (v, n) =>
    obtain ⟨i, rfl⟩ := hm v n rfl
    obtain ⟨hv, hn⟩ := hx v n i rfl
    exact hsome v n hv hn

/-! ## Tokens -/

theorem ensures_takeToken {c : Value P} (hc : c.OnFlat) :
    (Run.ofExcept (Body.takeToken c) : Run σ P _).Ensures (MatchFits (some (.ofInt 1))) := by
  refine (Run.ensures_ofExcept _).mono fun r hr => ?_
  obtain ⟨d, i, rfl, rfl | ⟨x, e, hx, he, rfl⟩⟩ := Body.takeToken_eq_ok hr
  · exact matchFits_failure
  · have hflat : Flat d.tokens := hc d i rfl
    have hmem : x ∈ d.tokens := Cursor.mem_tokens_of_current hx
    have htokens : e.tokens = d.tokens := (Cursor.tokens_advance he).1
    exact matchFits_success (fits_one (hflat x hmem)) (onFlat_cursor (htokens ▸ hflat))

theorem ensures_takeEnd {c : Value P} (hc : c.OnFlat) :
    (Run.ofExcept (Body.takeEnd c) : Run σ P _).Ensures (MatchFits (some (.ofInt 0))) := by
  refine (Run.ensures_ofExcept _).mono fun r hr => ?_
  obtain ⟨d, _, hr⟩ := exists_ok_of_bind hr
  cases hr
  split
  · exact matchFits_success fits_zero hc
  · exact matchFits_failure

/-! ## Parsers made of parsers -/

/-- **Matches of the parser fit its arity**, whatever runs it. -/
def FitsUnder (run : Parser P → Value P → Run σ P (Value P)) (p : Parser P) : Prop :=
  ∀ c, c.OnFlat → (run p c).Ensures (MatchFits p.declared)

section

variable {run : Parser P → Value P → Run σ P (Value P)} {c : Value P}

theorem ensures_runAll {ps : List (Parser P)} (h : ∀ p ∈ ps, FitsUnder run p) (hc : c.OnFlat) :
    (Body.runAll run ps c).Ensures fun m => ∀ vs d, m = some (vs, d) →
      List.Forall₂ (fun p v => v.Fits p.declared) ps vs ∧ d.OnFlat := by
  induction ps generalizing c with
  | nil =>
    refine Run.ensures_pure ?_
    rintro _ _ ⟨⟩
    exact ⟨.nil, hc⟩
  | cons p ps ih =>
    obtain ⟨hp, hps⟩ := List.forall_mem_cons.1 h
    unfold Body.runAll
    refine Ensures.readMatch (hp c hc) (Run.ensures_pure fun _ _ h => by cases h) ?_
    intro v n hv hn
    refine (ih hps hn).bind fun m hm => ?_
    match m with
    | none => exact Run.ensures_pure fun _ _ h => by contradiction
    | some (vs, d) =>
      obtain ⟨hvs, hd⟩ := hm vs d rfl
      refine Run.ensures_pure ?_
      rintro _ _ ⟨⟩
      exact ⟨.cons hv hvs, hd⟩

theorem ensures_runFirst {ps : List (Parser P)} {declared : Option (Value P)}
    (h : ∀ p ∈ ps, FitsUnder run p)
    (hd : ∀ p ∈ ps, ∀ v : Value P, v.Fits p.declared → v.Fits declared) (hc : c.OnFlat) :
    (Body.runFirst run ps c).Ensures (MatchFits declared) := by
  induction ps with
  | nil => exact Run.ensures_pure matchFits_failure
  | cons p ps ih =>
    obtain ⟨hp, hps⟩ := List.forall_mem_cons.1 h
    obtain ⟨hdp, hdps⟩ := List.forall_mem_cons.1 hd
    unfold Body.runFirst
    refine (hp c hc).bind fun r hr => ?_
    split
    · refine Run.ensures_pure fun v n i hv => ?_
      obtain ⟨hvp, hn⟩ := hr v n i hv
      exact ⟨hdp v hvp, hn⟩
    · exact ih hps hdps

theorem ensures_runMany {p : Parser P} (h : FitsUnder run p) (rounds : Nat) (hc : c.OnFlat) :
    (Body.runMany run p rounds c).Ensures fun x => x.2.OnFlat := by
  induction rounds generalizing c with
  | zero => exact Run.ensures_exhaust
  | succ rounds ih =>
    unfold Body.runMany
    refine Ensures.readMatch (h c hc) (Run.ensures_pure hc) fun v n _ hn => ?_
    exact (ih hn).bind fun x hx => Run.ensures_pure hx

end

/-! ## Mappers -/

/-- **Honest**: given flat components, what the mapper hands on fits what it declares.  What a
selection or a filter hands on are some of the components it was given. -/
def Mapper.Honest (call : Invoke σ P) : Mapper P → Prop
  | total f n => ∀ xs, Flat xs → (call f xs).Ensures fun w => w.unwrap.Fits n
  | fallible f n => ∀ xs, Flat xs →
      (call f xs).Ensures fun w => ∀ x i, w = .present x i → x.unwrap.Fits n
  | select _ => True
  | filter _ => True

/-- What the mapper hands on of an answer, if it does, satisfies `Q`. -/
def Mapper.HandsOn (m : Mapper P) (Q : Value P → Prop) (w : Value P) : Prop :=
  if m.isFallible then ∀ x i, w = .present x i → Q x.unwrap else Q w.unwrap

/-- **An honest mapper hands on as many components as come out of it.** -/
theorem ensures_mapper {invoke : Invoke σ P} {m : Mapper P} (hm : m.Honest invoke)
    {declared : Option (Value P)} {v : Value P} (hv : v.Fits declared) :
    (m.apply invoke v.components).Ensures (m.HandsOn (Fits (m.resultArity declared))) := by
  have hflat := hv.wellShaped.flat
  cases m with
  | total f n => exact hm _ hflat
  | fallible f n => exact hm _ hflat
  | select indices =>
    refine (Run.ensures_ofExcept _).mono fun w hw => ?_
    rw [Mapper.choose_eq] at hw
    split at hw
    · rename_i ys hys
      cases hw
      have hys' := fits_tupleOf (hflat.of_subset (Mapper.subset_of_mapM hys))
      rw [Mapper.length_of_mapM hys] at hys'
      change (tupleOf ys).unwrap.Fits _
      rw [hys'.wellShaped.unwrap_eq]
      exact hys'
    · contradiction
  | filter f =>
    refine (Run.ensures_true _).bind fun b _ => Run.ensures_pure ?_
    split
    · rintro _ _ ⟨⟩
      have hw := wellShaped_tupleOf hflat
      rw [hw.unwrap_eq]
      exact ⟨hw, fun n hn => by rw [components_tupleOf hflat]; exact hv.counts n hn⟩
    · rintro _ _ ⟨⟩

/-- **What an honest mapper makes of a match fits.**  Only a match has a cursor to go on from, so
nothing is to be shown of other results. -/
theorem ensures_runMapper {invoke : Invoke σ P} {m : Mapper P} (hm : m.Honest invoke)
    {declared : Option (Value P)} {result : Value P} (hr : result.MatchFits declared) :
    (Body.runMapper invoke m result).Ensures (MatchFits (m.resultArity declared)) := by
  have answer : ∀ v, result.valueField = .ok v → (m.apply invoke v.components).Ensures fun w =>
      (∃ n i, result = .success v n i) → m.HandsOn (Fits (m.resultArity declared)) w := by
    intro v hv
    by_cases hs : ∃ n i, result = .success v n i
    · obtain ⟨n, i, rfl⟩ := hs
      exact (ensures_mapper hm (hr v n i rfl).1).mono fun w hw _ => hw
    · exact (Run.ensures_true _).mono fun w _ h => absurd h hs
  have handed {x n : Value P} (hx : (∃ v i, result = .success v n i) →
      x.Fits (m.resultArity declared)) (hn : result.nextField = .ok n) :
      (success x n none).MatchFits (m.resultArity declared) := by
    obtain ⟨v, i, rfl⟩ := exists_success_of_nextField hn
    exact matchFits_success (hx ⟨v, i, rfl⟩) (hr v n i rfl).2
  unfold Body.runMapper
  refine (Run.ensures_ofExcept _).bind fun v hv => (answer v hv).bind fun w hw => ?_
  have hw' : ∀ n, (∃ v i, result = .success v n i) →
      m.HandsOn (Fits (m.resultArity declared)) w := by
    rintro n ⟨u, i, rfl⟩
    cases hv
    exact hw ⟨n, i, rfl⟩
  unfold Mapper.HandsOn at hw'
  split
  · rename_i hf
    rw [if_pos hf] at hw'
    split
    · refine (Run.ensures_ofExcept _).bind fun n hn => Run.ensures_pure ?_
      exact handed (fun hs => hw' n hs _ _ rfl) hn
    · exact Run.ensures_pure matchFits_failure
    · exact Run.ensures_pure matchFits_failure
    · exact (Run.ensures_true _).bind fun _ _ => Run.ensures_raise _
  · rename_i hf
    rw [if_neg hf] at hw'
    refine (Run.ensures_ofExcept _).bind fun n hn => Run.ensures_pure ?_
    exact handed (hw' n) hn

end ParserAlgebra
