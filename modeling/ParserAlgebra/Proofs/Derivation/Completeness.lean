import ParserAlgebra.Proofs.Derivation.Soundness

/-!
# Proofs/Derivation/Completeness — what is derived is what some run reads as

An induction on the derivation: each premise says what a part of the run reads as with some fuel,
and with the largest of these, and one unit more for the call, the parts make up the whole.
-/

namespace ParserAlgebra

variable {P : Type} [Primitive P] {rules : String → Option (Value P)}
  {inputs : Set (List (Value P))}

/-! ## Goals with some fuel

More fuel keeps what a run reads as, so of two runs that were observed with different fuel, both can
be observed with the larger. -/

/-- What a goal comes to with some fuel, as a verdict. -/
def Goal.ReadsAt (rules : String → Option (Value P)) (fuel : Nat) (c : Value P) :
    Goal P → Verdict P → Prop
  | body b => Reads (b.apply (call (quiet rules) fuel) fuel c).outcome
  | row ps =>
    ReadsRow (Body.runAll (fun p c => call (quiet rules) fuel (.parser p) [c]) ps c).outcome
  | choice ps =>
    Reads (Body.runFirst (fun p c => call (quiet rules) fuel (.parser p) [c]) ps c).outcome
  | many p =>
    ReadsMany (Body.runMany (fun p c => call (quiet rules) fuel (.parser p) [c]) p fuel c).outcome

/-- A goal over some parsers. -/
def Goal.Over (rules : String → Option (Value P)) (inputs : Set (List (Value P)))
    (ps : Set (Parser P)) : Goal P → Prop
  | body b => b.Over rules inputs ps
  | row qs => ∀ q ∈ qs, q ∈ ps
  | choice qs => ∀ q ∈ qs, q ∈ ps
  | many p => p ∈ ps

omit [Primitive P] in
/-- A finished run that is below another ends like it. -/
theorem outcome_eq_of_below {α : Type} {r t : Run Unit P α} (h : r.Below t)
    (hr : r.outcome ≠ .error .exhausted) : t.outcome = r.outcome :=
  (outcome_of_below h).resolve_left hr

theorem calls_below (rules : String → Option (Value P)) {m n : Nat} (h : m ≤ n) (p : Parser P)
    (c : Value P) :
    (call (quiet rules) m (.parser p) [c] : Run Unit P _).Below
      (call (quiet rules) n (.parser p) [c]) := call_of_le _ h _ _

theorem reads_of_le {m n : Nat} (h : m ≤ n) {p : Parser P} {c : Value P} {v : Verdict P}
    (hv : Reads (call (quiet rules) m (.parser p) [c] : Run Unit P _).outcome v) :
    Reads (call (quiet rules) n (.parser p) [c] : Run Unit P _).outcome v := by
  rwa [outcome_eq_of_below (calls_below rules h p c) hv.finished]

theorem readsRow_of_le {m n : Nat} (h : m ≤ n) {ps : List (Parser P)} {c : Value P} {v : Verdict P}
    (hv : (Goal.row ps).ReadsAt rules m c v) : (Goal.row ps).ReadsAt rules n c v := by
  have hb := Congruence.runAll (C := below) (calls_below rules h) ps c
  simp only [Goal.ReadsAt] at hv ⊢
  rwa [outcome_eq_of_below hb hv.finished]

theorem readsChoice_of_le {m n : Nat} (h : m ≤ n) {ps : List (Parser P)} {c : Value P}
    {v : Verdict P} (hv : (Goal.choice ps).ReadsAt rules m c v) :
    (Goal.choice ps).ReadsAt rules n c v := by
  have hb := Congruence.runFirst (C := below) (calls_below rules h) ps c
  simp only [Goal.ReadsAt] at hv ⊢
  rwa [outcome_eq_of_below hb hv.finished]

theorem readsMany_of_le {m n k : Nat} (h : m ≤ n) (hk : m ≤ k) {p : Parser P} {c : Value P}
    {v : Verdict P} (hv : (Goal.many p).ReadsAt rules m c v) :
    ReadsMany (Body.runMany (fun p c => call (quiet rules) n (.parser p) [c]) p k c :
      Run Unit P _).outcome v := by
  have hb : (Body.runMany (fun p c => call (quiet rules) m (.parser p) [c]) p m c :
      Run Unit P _).Below _ := Body.runMany_below (call_of_le (quiet rules) h) hk p c
  simp only [Goal.ReadsAt] at hv
  rwa [outcome_eq_of_below hb hv.finished]

/-- A body that reads as a verdict is a call that does. -/
theorem reads_call {m n : Nat} (h : m < n) {p : Parser P} {c : Value P} {v : Verdict P}
    (hv : (Goal.body p.body).ReadsAt rules m c v) :
    Reads (call (quiet rules) n (.parser p) [c] : Run Unit P _).outcome v := by
  refine reads_of_le h ?_
  rw [call_body]
  exact hv

/-- A match is the same match from some fuel on. -/
theorem success_of_readsAt {m : Nat} {p : Parser P} {c : Value P} {y : Yield P}
    {rest : List (Value P)} (h : (Goal.body p.body).ReadsAt rules m c (.yields y rest)) :
    ∃ v d j k, (∀ n > m, (call (quiet rules) n (.parser p) [c] : Run Unit P _).outcome =
      .ok (.success v (.cursor d j) k)) ∧ v.WellShaped ∧ d.Clear ∧ y = .ofValue v ∧
      rest = d.remaining := by
  obtain ⟨v, d, j, k, ho, hv⟩ := h
  refine ⟨v, d, j, k, fun n hn => ?_, hv⟩
  rw [← call_body] at ho
  rw [outcome_eq_of_below (calls_below rules hn p c), ho]
  rw [ho]
  simp

/-- What a function answers it answers from some fuel on. -/
theorem Returns.outcome {f : Callable P} {args : List (Value P)} {a : Except (Error P) (Value P)}
    (h : Returns rules f args a) :
    ∃ m, ∀ n ≥ m, (call (quiet rules) n f args : Run Unit P _).outcome = a.mapError .raised := by
  obtain ⟨m, hm⟩ := h
  refine ⟨m, fun n hn => ?_⟩
  rw [outcome_eq_of_below (call_of_le _ hn f args), hm]
  rw [hm]
  intro ha
  match a with
  | .error e =>
    have : Halt.raised e = .exhausted := Except.error.inj ha
    contradiction

/-! ## From some fuel on -/

/-- The collection of a repetition answers from some fuel on. -/
theorem Gathers.reads {f : Callable P} {v w : Verdict P} (h : Gathers rules f v w)
    (hf : ∀ y rest, v = .yields y rest → CollectsOn rules f y.components) :
    ∃ m, ∀ n ≥ m, ∀ r : Run Unit P (List (Value P) × Value P),
      ReadsMany r.outcome v → Reads (r >>= gather (call (quiet rules) n) f).outcome w := by
  cases h with
  | stops hv =>
    refine ⟨0, fun n _ r hr => ?_⟩
    match v with
    | .fails => exact hr.elim
    | .raises e => exact reads_gather_raises hr
  | answers ha =>
    obtain ⟨m, hm⟩ := ha.outcome
    refine ⟨m, fun n hn r hr => ?_⟩
    obtain ⟨vs, d, j, ho, hd, hvs, rfl⟩ := hr
    obtain ⟨rfl, rfl⟩ := Yield.mk.inj hvs
    refine reads_gather ho hd (hm n hn) ?_
    rintro x rfl
    exact hf _ _ rfl x ha

/-- A mapper answers from some fuel on. -/
theorem Maps.reads {m : Mapper P} {v : Value P} {c : Cursor (Value P)} {w : Verdict P}
    (h : Maps rules v.components c.remaining m w) (hm : m.ShapelyOn rules v.components)
    (hv : v.WellShaped) (hc : c.Clear) (i k : Identity) : ∃ fuel, ∀ n ≥ fuel,
      Reads (Body.runMapper (call (quiet rules) n) m (.success v (.cursor c i) k)).outcome w := by
  cases h with
  | total ha =>
    obtain ⟨fuel, ho⟩ := ha.outcome
    refine ⟨fuel, fun n hn => reads_runMapper hc rfl (ho n hn) ?_⟩
    rintro x rfl
    exact hm x ha
  | fallible ha =>
    obtain ⟨fuel, ho⟩ := ha.outcome
    refine ⟨fuel, fun n hn => reads_runMapper_fallible hc rfl (ho n hn) ?_⟩
    rintro x j rfl
    exact hm x j ha
  | select h => exact ⟨0, fun n _ => reads_select hc hv h⟩
  | beyond h => exact ⟨0, fun n _ => reads_beyond hc h⟩
  | filter ha =>
    obtain ⟨fuel, ho⟩ := ha.outcome
    exact ⟨fuel, fun n hn => reads_filter hc hv (ho n hn)⟩

/-- A repetition that starts with a match goes on from there with all the fuel that is needed. -/
theorem readsAt_repeat1 {p : Parser P} {f : Callable P} {m : Nat} {c : Cursor (Value P)}
    {i : Identity} {y : Yield P} {rest : List (Value P)} {v w : Verdict P}
    (hm : (Goal.body p.body).ReadsAt rules m (.cursor c i) (.yields y rest))
    (hv : ∀ (d : Cursor (Value P)) (j : Identity), d.Clear → d.remaining = rest →
      ∃ l, (Goal.many p).ReadsAt rules l (.cursor d j) v)
    (hw : Gathers rules f (v.prepend [y.value]) w)
    (hf : ∀ z rest, v.prepend [y.value] = .yields z rest → CollectsOn rules f z.components) :
    ∃ fuel, (Goal.body (.repeat1 p f)).ReadsAt rules fuel (.cursor c i) w := by
  obtain ⟨x, d, j, k, ho, hx, hd, rfl, rfl⟩ := success_of_readsAt hm
  obtain ⟨l, hl⟩ := hv d j hd rfl
  obtain ⟨n, hn⟩ := hw.reads hf
  rw [Yield.value_ofValue hx] at hn
  have hlt : m < max (m + 1) (max l n) :=
    Nat.lt_of_lt_of_le (Nat.lt_succ_self m) (Nat.le_max_left _ _)
  have hll : l ≤ max (m + 1) (max l n) := by omega
  refine ⟨max (m + 1) (max l n), ?_⟩
  simp only [Goal.ReadsAt]
  rw [outcome_repeat1_of_success (ho _ hlt)]
  exact hn _ (by omega) _ (reads_many_cons (ho _ hlt) (readsMany_of_le hll hll hl))

theorem readsAt_map {p : Parser P} {mapper : Mapper P} {m : Nat} {c : Value P} {y : Yield P}
    {rest : List (Value P)} {v : Verdict P}
    (hm : (Goal.body p.body).ReadsAt rules m c (.yields y rest))
    (hv : Maps rules y.components rest mapper v) (hs : mapper.ShapelyOn rules y.components) :
    ∃ fuel, (Goal.body (.map p mapper)).ReadsAt rules fuel c v := by
  obtain ⟨x, d, j, k, ho, hx, hd, rfl, rfl⟩ := success_of_readsAt hm
  obtain ⟨n, hn⟩ := hv.reads hs hx hd j k
  refine ⟨max (m + 1) n, ?_⟩
  simp only [Goal.ReadsAt]
  rw [outcome_map_of_success (ho _ (by omega))]
  exact hn _ (Nat.le_max_right _ _)

/-- Delegating takes some more fuel than the parser it is delegated to. -/
theorem readsAt_raw {f : Value P} {q : Parser P} {m : Nat} {c : Value P} {v : Verdict P}
    (hf : Delegates rules f q) (hm : (Goal.body q.body).ReadsAt rules m c v) :
    ∃ fuel, (Goal.body (.raw f)).ReadsAt rules fuel c v := by
  obtain ⟨k, hk⟩ := hf.invokeWith_eq c
  refine ⟨m + 1 + k, ?_⟩
  have hrun := hk (m + 1)
  simp only [Goal.ReadsAt, Body.apply, hrun]
  exact reads_call (Nat.lt_succ_self m) hm

/-- **What is derived is what some run reads as.** -/
theorem readsAt_of_derives (hin : GoesOn inputs) {ps : Set (Parser P)}
    (hps : ∀ p ∈ ps, p.body.Over rules inputs ps) {goal : Goal P} {ts : List (Value P)}
    {v : Verdict P} (h : Derives rules goal ts v) (hg : goal.Over rules inputs ps)
    (hts : ts ∈ inputs) {c : Cursor (Value P)} (i : Identity) (hc : c.Clear)
    (hr : c.remaining = ts) : ∃ fuel, goal.ReadsAt rules fuel (.cursor c i) v := by
  induction h generalizing c i with
  | succeed =>
    subst hr
    exact ⟨0, reads_empty hc⟩
  | fail => exact ⟨0, rfl⟩
  | one =>
    have ht := reads_takeToken (i := i) hc
    rw [hr] at ht
    exact ⟨0, ht⟩
  | one_nil =>
    have ht := reads_takeToken (i := i) hc
    rw [hr] at ht
    exact ⟨0, ht⟩
  | endOfInput =>
    have ht := reads_takeEnd (i := i) hc
    rw [hr] at ht
    exact ⟨0, ht⟩
  | endOfInput_cons =>
    have ht := reads_takeEnd (i := i) hc
    rw [hr] at ht
    exact ⟨0, ht⟩
  | optional _ ih =>
    obtain ⟨m, hm⟩ := ih (hps _ hg) hts i hc hr
    subst hr
    exact ⟨m + 1, reads_optional hc (reads_call (Nat.lt_succ_self m) hm)⟩
  | sequence _ ih =>
    obtain ⟨m, hm⟩ := ih hg hts i hc hr
    exact ⟨m, reads_sequence hm⟩
  | alternative _ ih => exact ih hg hts i hc hr
  | @repeat0 p f ts v w hv hw ih =>
    obtain ⟨m, hm⟩ := ih hg.1 hts i hc hr
    have collects : ∀ y rest, v = .yields y rest → CollectsOn rules f y.components := by
      rintro y rest rfl
      exact hg.2 _ hts y rest hv
    obtain ⟨n, hn⟩ := hw.reads collects
    refine ⟨max m n, ?_⟩
    simp only [Goal.ReadsAt, apply_repeat0]
    exact hn _ (Nat.le_max_right m n) _
      (readsMany_of_le (Nat.le_max_left m n) (Nat.le_max_left m n) hm)
  | repeat1_stops _ hv ih =>
    obtain ⟨m, hm⟩ := ih (hps _ hg.1) hts i hc hr
    exact ⟨m + 1, reads_repeat1_stops (reads_call (Nat.lt_succ_self m) hm) hv⟩
  | @repeat1 p f ts y mid v w hp hv hw ih ih' =>
    obtain ⟨m, hm⟩ := ih (hps _ hg.1) hts i hc hr
    have collects : ∀ z rest, v.prepend [y.value] = .yields z rest →
        CollectsOn rules f z.components :=
      fun z rest hz => hg.2 _ hts z rest (hz ▸ .many_yields hp hv)
    exact readsAt_repeat1 hm (fun d j => ih' hg.1 (hp.leaves hin hts) j) hw collects
  | map_stops _ hv ih =>
    obtain ⟨m, hm⟩ := ih (hps _ hg.1) hts i hc hr
    exact ⟨m + 1, reads_map_stops (reads_call (Nat.lt_succ_self m) hm) hv⟩
  | map hp hv ih =>
    obtain ⟨m, hm⟩ := ih (hps _ hg.1) hts i hc hr
    exact readsAt_map hm hv (hg.2 _ hts _ _ hp)
  | delegate hf _ ih =>
    obtain ⟨q, hq, hfq⟩ := hg
    obtain rfl := hfq.unique hf
    obtain ⟨m, hm⟩ := ih (hps q hq) hts i hc hr
    exact readsAt_raw hf hm
  | row_nil =>
    subst hr
    exact ⟨0, reads_row_nil hc⟩
  | row_stops _ hv ih =>
    obtain ⟨m, hm⟩ := ih (hps _ (hg _ (by simp))) hts i hc hr
    exact ⟨m + 1, reads_row_stops (reads_call (Nat.lt_succ_self m) hm) hv⟩
  | row_cons hp _ ih ih' =>
    obtain ⟨m, hm⟩ := ih (hps _ (hg _ (by simp))) hts i hc hr
    obtain ⟨v, d, j, k, ho, hw, hd, rfl, rfl⟩ := success_of_readsAt hm
    obtain ⟨n, hn⟩ := ih' (fun q hq => hg q (by simp [hq])) (hp.leaves hin hts) j hd rfl
    refine ⟨max (m + 1) n, reads_row_cons (ho _ (by omega)) hw ?_⟩
    exact readsRow_of_le (Nat.le_max_right _ _) hn
  | choice_nil => exact ⟨0, rfl⟩
  | choice_head _ hv ih =>
    obtain ⟨m, hm⟩ := ih (hps _ (hg _ (by simp))) hts i hc hr
    exact ⟨m + 1, reads_choice_head (reads_call (Nat.lt_succ_self m) hm) hv⟩
  | choice_tail _ _ ih ih' =>
    obtain ⟨m, hm⟩ := ih (hps _ (hg _ (by simp))) hts i hc hr
    obtain ⟨n, hn⟩ := ih' (fun q hq => hg q (by simp [hq])) hts i hc hr
    refine ⟨max (m + 1) n, reads_choice_tail (reads_call (Nat.le_max_left _ _) hm) ?_⟩
    exact readsChoice_of_le (Nat.le_max_right _ _) hn
  | many_fails _ ih =>
    obtain ⟨m, hm⟩ := ih (hps _ hg) hts i hc hr
    subst hr
    exact ⟨m + 1, reads_many_fails hc (reads_call (Nat.lt_succ_self m) hm)⟩
  | many_raises _ ih =>
    obtain ⟨m, hm⟩ := ih (hps _ hg) hts i hc hr
    exact ⟨m + 1, reads_many_raises (reads_call (Nat.lt_succ_self m) hm)⟩
  | many_yields hp _ ih ih' =>
    obtain ⟨m, hm⟩ := ih (hps _ hg) hts i hc hr
    obtain ⟨v, d, j, k, ho, hw, hd, rfl, rfl⟩ := success_of_readsAt hm
    obtain ⟨n, hn⟩ := ih' hg (hp.leaves hin hts) j hd rfl
    rw [Yield.value_ofValue hw]
    refine ⟨max m n + 1, reads_many_cons (ho _ (by omega)) ?_⟩
    exact readsMany_of_le (by omega) (Nat.le_max_right m n) hn

end ParserAlgebra
