import ParserAlgebra.Proofs.Derivation.Reading

/-!
# Proofs/Derivation/Soundness — what a finished run reads as is derived

    every operand's run reads as a verdict it derives   ⟹   so does the parser's

An induction on the fuel: a run either is out of it, or reads as a verdict that is derived
(`Settles`).  A body is put together from calls with one unit less, which are settled by then, and
the lists and rounds it goes through are settled one by one.

This holds of any parsers whose operands are among them (`Body.Over`), provided that mappers answer
with well-shaped values and collections with none that is a composite.  What they would answer to
components that their operand never hands on is of no concern.
-/

namespace ParserAlgebra

variable {P : Type} [Primitive P]

/-! ## Parsers over parsers -/

/-- Whatever the mapper hands on, given these components, is well-shaped. -/
def Mapper.ShapelyOn (rules : String → Option (Value P)) (xs : List (Value P)) : Mapper P → Prop
  | total f _ => ∀ w, Returns rules f xs (.ok w) → w.unwrap.WellShaped
  | fallible f _ => ∀ x i, Returns rules f xs (.ok (.present x i)) → x.unwrap.WellShaped
  | select _ => True
  | filter _ => True

/-- **Whatever the mapper hands on is well-shaped**, given the components of a match of the parser
on some of the inputs. -/
def Mapper.Shapely (rules : String → Option (Value P)) (inputs : Set (List (Value P)))
    (p : Parser P) (m : Mapper P) : Prop :=
  ∀ ts ∈ inputs, ∀ y rest, Derives rules (.body p.body) ts (.yields y rest) →
    m.ShapelyOn rules y.components

/-- What the collection makes of these items is no composite. -/
def CollectsOn (rules : String → Option (Value P)) (f : Callable P) (xs : List (Value P)) : Prop :=
  ∀ w, Returns rules f [.list xs none] (.ok w) → w.isComposite = false

/-- **Whatever the collection makes of the matches of the parser is no composite**, on any of the
inputs. -/
def Collects (rules : String → Option (Value P)) (inputs : Set (List (Value P))) (p : Parser P)
    (f : Callable P) : Prop :=
  ∀ ts ∈ inputs, ∀ y rest, Derives rules (.many p) ts (.yields y rest) →
    CollectsOn rules f y.components

/-- **A body over some parsers**: its operands are among them, and so is what it delegates to. -/
def Body.Over (rules : String → Option (Value P)) (inputs : Set (List (Value P)))
    (ps : Set (Parser P)) : Body P → Prop
  | succeed => True
  | fail => True
  | one => True
  | endOfInput => True
  | optional p => p ∈ ps
  | sequence qs => ∀ q ∈ qs, q ∈ ps
  | alternative qs => ∀ q ∈ qs, q ∈ ps
  | repeat0 p f => p ∈ ps ∧ Collects rules inputs p f
  | repeat1 p f => p ∈ ps ∧ Collects rules inputs p f
  | map p m => p ∈ ps ∧ m.Shapely rules inputs p
  | raw f => ∃ q ∈ ps, Delegates rules f q

/-! ## How functions and parsers are called -/

variable {rules : String → Option (Value P)} {inputs : Set (List (Value P))}

theorem call_body (fuel : Nat) (p : Parser P) (c : Value P) :
    (call (quiet rules) (fuel + 1) (.parser p) [c] : Run Unit P _) =
      p.body.apply (call (quiet rules) fuel) fuel c := by
  simp only [call, Run.own_unit, bind_pure]
  rfl

/-- A function that delegates does what the parser does, if it has fuel enough to call it. -/
theorem Delegates.invokeWith_eq {f : Value P} {q : Parser P} (h : Delegates rules f q)
    (c : Value P) : ∃ k, ∀ fuel, f.invokeWith (call (quiet rules) (fuel + k)) [c] =
      (call (quiet rules) fuel (.parser q) [c] : Run Unit P _) := by
  cases h with
  | parser => exact ⟨0, fun fuel => rfl⟩
  | rule h =>
    refine ⟨1, fun fuel => ?_⟩
    simp only [Value.invokeWith, call, Action.apply, h, Run.own_unit, bind_pure]
  | host h =>
    refine ⟨1, fun fuel => ?_⟩
    simp only [Value.invokeWith, call, Action.apply, h, Conduct.follow, Run.own_unit,
      Run.ownAll_unit, bind_pure]
    rfl

/-- A function delegates to one parser only. -/
theorem Delegates.unique {f : Value P} {p q : Parser P} (hp : Delegates rules f p)
    (hq : Delegates rules f q) : p = q := by
  cases hp with
  | parser =>
    cases hq
    rfl
  | rule hp =>
    obtain _ | ⟨hq⟩ := hq
    rw [hp] at hq
    cases hq
    rfl
  | host hp =>
    obtain _ | _ | ⟨hq⟩ := hq
    have h := (hp .null).symm.trans (hq .null)
    cases h
    rfl

omit [Primitive P] in
theorem outcome_of_below {α : Type} {r t : Run Unit P α} (h : r.Below t) :
    r.outcome = .error .exhausted ∨ t.outcome = r.outcome := by
  by_cases hr : r.outcome = .error .exhausted
  · exact .inl hr
  · exact .inr (congrArg Ending.outcome (h () hr))

/-- A call that finished has shown what the function answers. -/
theorem returns_of_call (fuel : Nat) (f : Callable P) (args : List (Value P)) :
    (call (quiet rules) fuel f args : Run Unit P _).outcome = .error .exhausted ∨
      ∃ a, (call (quiet rules) fuel f args : Run Unit P _).outcome = a.mapError .raised ∧
        Returns rules f args a := by
  match h : (call (quiet rules) fuel f args : Run Unit P _).outcome with
  | .ok x => exact .inr ⟨.ok x, rfl, fuel, h⟩
  | .error (.raised e) => exact .inr ⟨.error e, rfl, fuel, h⟩
  | .error .exhausted => exact .inl rfl

/-! ## What finishes is derived -/

/-- **Settled**: the run is out of fuel, or what it reads as holds. -/
def Settles {α : Type} (Reading : Except (Halt (Error P)) α → Verdict P → Prop)
    (D : Verdict P → Prop) (o : Except (Halt (Error P)) α) : Prop :=
  o = .error .exhausted ∨ ∃ v, D v ∧ Reading o v

/-- What is said about running some parsers at a clear cursor, in front of one of the inputs. -/
def SettlesAll (rules : String → Option (Value P)) (inputs : Set (List (Value P)))
    (run : Parser P → Value P → Run Unit P (Value P)) (ps : Set (Parser P)) : Prop :=
  ∀ p ∈ ps, ∀ (c : Cursor (Value P)) (i : Identity), c.Clear → c.remaining ∈ inputs →
    Settles Reads (Derives rules (.body p.body) c.remaining) (run p (.cursor c i)).outcome

section

variable {run : Parser P → Value P → Run Unit P (Value P)} {qs : Set (Parser P)}
  (hin : GoesOn inputs) (h : SettlesAll rules inputs run qs)

include h

theorem settles_choice (ps : List (Parser P)) (hps : ∀ p ∈ ps, p ∈ qs) {c : Cursor (Value P)}
    (i : Identity) (hc : c.Clear) (hr : c.remaining ∈ inputs) :
    Settles Reads (Derives rules (.choice ps) c.remaining)
      (Body.runFirst run ps (.cursor c i)).outcome := by
  induction ps with
  | nil => exact .inr ⟨.fails, .choice_nil, rfl⟩
  | cons p ps ih =>
    rcases h p (hps p (by simp)) c i hc hr with ho | ⟨v, hd, hv⟩
    · exact .inl (Run.outcome_bind_of_error ho _)
    · by_cases hf : v = .fails
      · subst hf
        rcases ih fun q hq => hps q (by simp [hq]) with he | ⟨w, hdw, hrw⟩
        · refine .inl ?_
          unfold Body.runFirst
          rw [Run.outcome_bind_of_ok hv]
          exact he
        · exact .inr ⟨w, .choice_tail hd hdw, reads_choice_tail hv hrw⟩
      · exact .inr ⟨v, .choice_head hd hf, reads_choice_head hv hf⟩

include hin

theorem settles_row (ps : List (Parser P)) (hps : ∀ p ∈ ps, p ∈ qs) {c : Cursor (Value P)}
    (i : Identity) (hc : c.Clear) (hr : c.remaining ∈ inputs) :
    Settles ReadsRow (Derives rules (.row ps) c.remaining)
      (Body.runAll run ps (.cursor c i)).outcome := by
  induction ps generalizing c i with
  | nil => exact .inr ⟨_, .row_nil, reads_row_nil hc⟩
  | cons p ps ih =>
    rcases h p (hps p (by simp)) c i hc hr with ho | ⟨v, hd, hv⟩
    · exact .inl (Run.outcome_bind_of_error ho _)
    · match v with
      | .fails => exact .inr ⟨_, .row_stops hd trivial, reads_row_stops hv trivial⟩
      | .raises e => exact .inr ⟨_, .row_stops hd trivial, reads_row_stops hv trivial⟩
      | .yields y rest =>
        obtain ⟨v, d, j, k, ho, hw, hdc, rfl, rfl⟩ := hv
        have further := ih (fun q hq => hps q (by simp [hq])) j hdc (hd.leaves hin hr)
        rcases further with he | ⟨w, hdw, hrw⟩
        · refine .inl ?_
          unfold Body.runAll
          rw [outcome_readMatch_of_success ho]
          exact Run.outcome_bind_of_error he _
        · exact .inr ⟨_, .row_cons hd hdw, reads_row_cons ho hw hrw⟩

theorem settles_many {p : Parser P} (hp : p ∈ qs) (rounds : Nat) {c : Cursor (Value P)}
    (i : Identity) (hc : c.Clear) (hr : c.remaining ∈ inputs) :
    Settles ReadsMany (Derives rules (.many p) c.remaining)
      (Body.runMany run p rounds (.cursor c i)).outcome := by
  induction rounds generalizing c i with
  | zero => exact .inl rfl
  | succ rounds ih =>
    rcases h p hp c i hc hr with ho | ⟨v, hd, hv⟩
    · exact .inl (Run.outcome_bind_of_error ho _)
    · match v with
      | .fails => exact .inr ⟨_, .many_fails hd, reads_many_fails hc hv⟩
      | .raises e => exact .inr ⟨_, .many_raises hd, reads_many_raises hv⟩
      | .yields y rest =>
        obtain ⟨v, d, j, k, ho, hw, hdc, rfl, rfl⟩ := hv
        rcases ih j hdc (hd.leaves hin hr) with he | ⟨w, hdw, hrw⟩
        · refine .inl ?_
          unfold Body.runMany
          rw [outcome_readMatch_of_success ho]
          exact Run.outcome_bind_of_error he _
        · have hmany := reads_many_cons ho hrw
          rw [← Yield.value_ofValue hw] at hmany
          exact .inr ⟨_, .many_yields hd hdw, hmany⟩

end

theorem settles_gather {r : Run Unit P (List (Value P) × Value P)} {f : Callable P} {fuel : Nat}
    {v : Verdict P} (hf : ∀ y rest, v = .yields y rest → CollectsOn rules f y.components)
    (hr : ReadsMany r.outcome v) :
    Settles Reads (Gathers rules f v) (r >>= gather (call (quiet rules) fuel) f).outcome := by
  match v with
  | .fails => exact hr.elim
  | .raises e => exact .inr ⟨_, .stops trivial, reads_gather_raises hr⟩
  | .yields y rest =>
    obtain ⟨vs, d, j, ho, hd, rfl, rfl⟩ := hr
    rcases returns_of_call fuel f [.list vs none] with he | ⟨a, ha, hra⟩
    · refine .inl ?_
      rw [Run.outcome_bind_of_ok ho]
      exact Run.outcome_bind_of_error he _
    · refine .inr ⟨_, .answers hra, reads_gather ho hd ha ?_⟩
      rintro x rfl
      exact hf _ _ rfl x hra

theorem settles_runMapper {m : Mapper P} {fuel : Nat} {v : Value P} {c : Cursor (Value P)}
    {i k : Identity} (hm : m.ShapelyOn rules v.components) (hv : v.WellShaped) (hc : c.Clear) :
    Settles Reads (Maps rules v.components c.remaining m)
      (Body.runMapper (call (quiet rules) fuel) m (.success v (.cursor c i) k)).outcome := by
  cases m with
  | total f n =>
    rcases returns_of_call fuel f v.components with he | ⟨a, ha, hra⟩
    · exact .inl (Run.outcome_bind_of_error he _)
    · refine .inr ⟨_, .total hra, reads_runMapper hc rfl ha ?_⟩
      rintro w rfl
      exact hm w hra
  | fallible f n =>
    rcases returns_of_call fuel f v.components with he | ⟨a, ha, hra⟩
    · exact .inl (Run.outcome_bind_of_error he _)
    · refine .inr ⟨_, .fallible hra, reads_runMapper_fallible hc rfl ha ?_⟩
      rintro x j rfl
      exact hm x j hra
  | select indices =>
    match h : indices.mapM fun i => v.components[i]? with
    | some ys => exact .inr ⟨_, .select h, reads_select hc hv h⟩
    | none => exact .inr ⟨_, .beyond h, reads_beyond hc h⟩
  | filter f =>
    rcases returns_of_call fuel f v.components with he | ⟨a, ha, hra⟩
    · exact .inl (Run.outcome_bind_of_error (Run.outcome_bind_of_error he _) _)
    · exact .inr ⟨_, .filter hra, reads_filter hc hv ha⟩

section

variable {ps : Set (Parser P)} {fuel : Nat} {c : Cursor (Value P)} {i : Identity}
  (hin : GoesOn inputs)
  (h : SettlesAll rules inputs (fun p c => call (quiet rules) fuel (.parser p) [c]) ps)
  (hc : c.Clear) (hr : c.remaining ∈ inputs)

include h hc hr

include hin in
theorem settles_repeat0 {p : Parser P} {f : Callable P} (hp : p ∈ ps)
    (hf : Collects rules inputs p f) :
    Settles Reads (Derives rules (.body (.repeat0 p f)) c.remaining)
      ((Body.repeat0 p f).apply (call (quiet rules) fuel) fuel (.cursor c i)).outcome := by
  rw [apply_repeat0]
  obtain ho | ⟨v, hd, hv⟩ := settles_many hin h hp fuel i hc hr
  · exact .inl (Run.outcome_bind_of_error ho _)
  · have collects : ∀ y rest, v = .yields y rest → CollectsOn rules f y.components := by
      rintro y rest rfl
      exact hf _ hr y rest hd
    obtain he | ⟨w, hw, hrw⟩ := settles_gather collects hv
    · exact .inl he
    · exact .inr ⟨w, .repeat0 hd hw, hrw⟩

include hin in
/-- The first match and the further ones go through the collection together. -/
theorem settles_repeat1 {p : Parser P} {f : Callable P} (hp : p ∈ ps)
    (hf : Collects rules inputs p f) :
    Settles Reads (Derives rules (.body (.repeat1 p f)) c.remaining)
      ((Body.repeat1 p f).apply (call (quiet rules) fuel) fuel (.cursor c i)).outcome := by
  obtain ho | ⟨v, hd, hv⟩ := h p hp c i hc hr
  · exact .inl (Run.outcome_bind_of_error ho _)
  match v with
  | .fails => exact .inr ⟨_, .repeat1_stops hd trivial, reads_repeat1_stops hv trivial⟩
  | .raises e => exact .inr ⟨_, .repeat1_stops hd trivial, reads_repeat1_stops hv trivial⟩
  | .yields y rest =>
    obtain ⟨v, d, j, k, ho, hw, hdc, rfl, rfl⟩ := hv
    rw [outcome_repeat1_of_success ho]
    obtain he | ⟨w, hdw, hrw⟩ := settles_many hin h hp fuel j hdc (hd.leaves hin hr)
    · refine .inl (Run.outcome_bind_of_error ?_ _)
      unfold Body.runMany
      rw [outcome_readMatch_of_success ho]
      exact Run.outcome_bind_of_error he _
    · have hmany := reads_many_cons ho hrw
      rw [← Yield.value_ofValue hw] at hmany
      have collects : ∀ z rest, w.prepend [(Yield.ofValue v).value] = .yields z rest →
          CollectsOn rules f z.components :=
        fun z rest hz => hf _ hr z rest (hz ▸ .many_yields hd hdw)
      obtain he | ⟨u, hu, hru⟩ := settles_gather collects hmany
      · exact .inl he
      · exact .inr ⟨u, .repeat1 hd hdw hu, hru⟩

theorem settles_map {p : Parser P} {m : Mapper P} (hp : p ∈ ps) (hm : m.Shapely rules inputs p) :
    Settles Reads (Derives rules (.body (.map p m)) c.remaining)
      ((Body.map p m).apply (call (quiet rules) fuel) fuel (.cursor c i)).outcome := by
  obtain ho | ⟨v, hd, hv⟩ := h p hp c i hc hr
  · exact .inl (Run.outcome_bind_of_error ho _)
  match v with
  | .fails => exact .inr ⟨_, .map_stops hd trivial, reads_map_stops hv trivial⟩
  | .raises e => exact .inr ⟨_, .map_stops hd trivial, reads_map_stops hv trivial⟩
  | .yields y rest =>
    obtain ⟨v, d, j, k, ho, hw, hdc, rfl, rfl⟩ := hv
    rw [outcome_map_of_success ho]
    obtain he | ⟨u, hu, hru⟩ := settles_runMapper (hm _ hr _ _ hd) hw hdc
    · exact .inl he
    · exact .inr ⟨u, .map hd hu, hru⟩

/-- A function that delegates does no more with its fuel than the parser it delegates to. -/
theorem settles_raw {f : Value P} {q : Parser P} (hq : q ∈ ps) (hf : Delegates rules f q) :
    Settles Reads (Derives rules (.body (.raw f)) c.remaining)
      ((Body.raw f).apply (call (quiet rules) fuel) fuel (.cursor c i)).outcome := by
  obtain ⟨k, hk⟩ := hf.invokeWith_eq (.cursor c i)
  have hle : (f.invokeWith (call (quiet rules) fuel) [.cursor c i] : Run Unit P _).Below
      (f.invokeWith (call (quiet rules) (fuel + k)) [.cursor c i]) :=
    Congruence.invokeWith (C := below) (call_of_le _ (Nat.le_add_right fuel k)) f _
  rw [hk] at hle
  obtain ho | ho := outcome_of_below hle
  · exact .inl ho
  · obtain hx | ⟨v, hd, hv⟩ := h q hq c i hc hr
    · exact .inl (ho ▸ hx)
    · exact .inr ⟨v, .delegate hf hd, ho ▸ hv⟩

end

/-- **What a finished body reads as is derived**, if that holds of the calls it makes. -/
theorem settles_body (hin : GoesOn inputs) {ps : Set (Parser P)} {fuel : Nat}
    (h : SettlesAll rules inputs (fun p c => call (quiet rules) fuel (.parser p) [c]) ps)
    {b : Body P} (hb : b.Over rules inputs ps) {c : Cursor (Value P)} {i : Identity}
    (hc : c.Clear) (hr : c.remaining ∈ inputs) : Settles Reads (Derives rules (.body b) c.remaining)
      (b.apply (call (quiet rules) fuel) fuel (.cursor c i)).outcome := by
  cases b with
  | succeed => exact .inr ⟨_, .succeed, reads_empty hc⟩
  | fail => exact .inr ⟨.fails, .fail, rfl⟩
  | one =>
    have ht := reads_takeToken (i := i) hc
    match hts : c.remaining with
    | [] => exact .inr ⟨_, .one_nil, by rwa [hts] at ht⟩
    | t :: ts => exact .inr ⟨_, .one, by rwa [hts] at ht⟩
  | endOfInput =>
    have ht := reads_takeEnd (i := i) hc
    match hts : c.remaining with
    | [] => exact .inr ⟨_, .endOfInput, by rwa [hts] at ht⟩
    | t :: ts => exact .inr ⟨_, .endOfInput_cons, by rwa [hts] at ht⟩
  | optional p =>
    rcases h p hb c i hc hr with ho | ⟨v, hd, hv⟩
    · exact .inl (Run.outcome_bind_of_error ho _)
    · exact .inr ⟨_, .optional hd, reads_optional hc hv⟩
  | sequence qs =>
    rcases settles_row hin h qs hb i hc hr with ho | ⟨v, hd, hv⟩
    · exact .inl (Run.outcome_bind_of_error ho _)
    · exact .inr ⟨_, .sequence hd, reads_sequence hv⟩
  | alternative qs =>
    rcases settles_choice h qs hb i hc hr with ho | ⟨v, hd, hv⟩
    · exact .inl ho
    · exact .inr ⟨_, .alternative hd, hv⟩
  | repeat0 p f => exact settles_repeat0 hin h hc hr hb.1 hb.2
  | repeat1 p f => exact settles_repeat1 hin h hc hr hb.1 hb.2
  | map p m => exact settles_map h hc hr hb.1 hb.2
  | raw f =>
    obtain ⟨q, hq, hf⟩ := hb
    exact settles_raw h hc hr hq hf

/-- **What a finished parser reads as is derived.** -/
theorem settles_call (hin : GoesOn inputs) {ps : Set (Parser P)}
    (hps : ∀ p ∈ ps, p.body.Over rules inputs ps) (fuel : Nat) :
    SettlesAll rules inputs (fun p c => call (quiet rules) fuel (.parser p) [c]) ps := by
  induction fuel with
  | zero => exact fun p hp c i hc hr => .inl rfl
  | succ fuel ih =>
    intro p hp c i hc hr
    change Settles _ _ (call (quiet rules) (fuel + 1) (.parser p) [.cursor c i]).outcome
    rw [call_body]
    exact settles_body hin ih (hps p hp) hc hr

end ParserAlgebra
