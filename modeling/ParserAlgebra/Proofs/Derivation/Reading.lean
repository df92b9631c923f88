import ParserAlgebra.Proofs.Derivation

/-!
# Proofs/Derivation/Reading — the verdict an outcome stands for

    .ok failure                 fails
    .error (raised e)           raises e
    .ok (success v cursor)      yields (components of v) (tokens left at cursor)

An outcome is read as a verdict, and every operation on outcomes is an operation on verdicts: this
is one lemma for each kind of body, for any way of making calls.  Whoever knows what the calls of a
body read as then knows what the body does.
-/

namespace ParserAlgebra

variable {P : Type}

/-- Nothing keeps the cursor from reading what is left, and none of it is a composite. -/
def Cursor.Clear (c : Cursor (Value P)) : Prop := c.Readable ∧ Value.Flat c.remaining

/-- **The verdict of a result.**  The value of a match has to be well-shaped, since only then do its
components say all about it. -/
def Reads (o : Except (Halt (Error P)) (Value P)) : Verdict P → Prop
  | .fails => o = .ok .failure
  | .raises e => o = .error (.raised e)
  | .yields y rest => ∃ v d i j, o = .ok (.success v (.cursor d i) j) ∧ v.WellShaped ∧ d.Clear ∧
      y = .ofValue v ∧ rest = d.remaining

/-- The verdict of parsers in a row: the components of their values. -/
def ReadsRow (o : Except (Halt (Error P)) (Option (List (Value P) × Value P))) : Verdict P → Prop
  | .fails => o = .ok none
  | .raises e => o = .error (.raised e)
  | .yields y rest => ∃ vs d i, o = .ok (some (vs, .cursor d i)) ∧ (∀ v ∈ vs, v.WellShaped) ∧
      d.Clear ∧ y = ⟨vs.flatMap Value.components, none⟩ ∧ rest = d.remaining

/-- The verdict of a repetition, which never fails: its values. -/
def ReadsMany (o : Except (Halt (Error P)) (List (Value P) × Value P)) : Verdict P → Prop
  | .fails => False
  | .raises e => o = .error (.raised e)
  | .yields y rest => ∃ vs d i, o = .ok (vs, .cursor d i) ∧ d.Clear ∧ y = ⟨vs, none⟩ ∧
      rest = d.remaining

/-! ## An outcome and its verdict -/

theorem Reads.finished {o : Except (Halt (Error P)) (Value P)} {v : Verdict P} (h : Reads o v) :
    o ≠ .error .exhausted := by
  rintro rfl
  cases v <;> simp [Reads] at h

theorem ReadsRow.finished {o : Except (Halt (Error P)) (Option (List (Value P) × Value P))}
    {v : Verdict P} (h : ReadsRow o v) : o ≠ .error .exhausted := by
  rintro rfl
  cases v <;> simp [ReadsRow] at h

theorem ReadsMany.finished {o : Except (Halt (Error P)) (List (Value P) × Value P)}
    {v : Verdict P} (h : ReadsMany o v) : o ≠ .error .exhausted := by
  rintro rfl
  cases v <;> simp [ReadsMany] at h

/-- **An outcome stands for one verdict.** -/
theorem Reads.unique {o : Except (Halt (Error P)) (Value P)} {v w : Verdict P} (hv : Reads o v)
    (hw : Reads o w) : v = w := by
  match v, w with
  | .fails, .fails => rfl
  | .fails, .raises e => cases Eq.trans (Eq.symm hv) hw
  | .raises e, .fails => cases Eq.trans (Eq.symm hv) hw
  | .raises e, .raises f =>
    cases Eq.trans (Eq.symm hv) hw
    rfl
  | .yields y rest, .yields z rest' =>
    obtain ⟨v, d, i, j, ho, _, _, rfl, rfl⟩ := hv
    obtain ⟨w, e, k, l, ho', _, _, rfl, rfl⟩ := hw
    cases Eq.trans (Eq.symm ho) ho'
    rfl
  | .yields y rest, .fails =>
    obtain ⟨v, d, i, j, ho, _⟩ := hv
    cases Eq.trans (Eq.symm ho) hw
  | .yields y rest, .raises e =>
    obtain ⟨v, d, i, j, ho, _⟩ := hv
    cases Eq.trans (Eq.symm ho) hw
  | .fails, .yields y rest =>
    obtain ⟨v, d, i, j, ho, _⟩ := hw
    cases Eq.trans (Eq.symm ho) hv
  | .raises e, .yields y rest =>
    obtain ⟨v, d, i, j, ho, _⟩ := hw
    cases Eq.trans (Eq.symm ho) hv

/-! ## Components of well-shaped values -/

namespace Yield

theorem ofValue_of_isComposite {v : Value P} (h : v.isComposite = false) :
    ofValue v = .single v := by
  cases v with
  | composite xs _ => contradiction
  | _ => rfl

/-- A well-shaped value is its components. -/
theorem value_ofValue {v : Value P} (h : v.WellShaped) : (ofValue v).value = v := by
  cases hv : v.isComposite with
  | false =>
    rw [ofValue_of_isComposite hv]
    rfl
  | true =>
    cases v with
    | composite xs identity =>
      obtain ⟨hl, _⟩ := h xs identity rfl
      match xs with
      | [] => rfl
      | [_] => exact absurd rfl hl
      | _ :: _ :: _ => rfl
    | _ => contradiction

/-- Flat components written as a value are a new composite. -/
theorem ofValue_tupleOf {xs : List (Value P)} (h : Value.Flat xs) :
    ofValue (Value.tupleOf xs) = ⟨xs, none⟩ := by
  match xs with
  | [] => rfl
  | [x] => exact ofValue_of_isComposite (Value.flat_singleton.1 h)
  | _ :: _ :: _ => rfl

end Yield

/-! ## Matches -/

section

variable {c : Cursor (Value P)} {i j : Identity}

open Value Yield

/-- A match that produced a well-shaped value. -/
theorem reads_success {v : Value P} (hv : v.WellShaped) (hc : c.Clear) :
    Reads (.ok (.success v (.cursor c i) j)) (.yields (.ofValue v) c.remaining) :=
  ⟨v, c, i, j, rfl, hv, hc, rfl, rfl⟩

/-- A match that produced a value that is no composite. -/
theorem reads_single {v : Value P} (hv : v.isComposite = false) (hc : c.Clear) :
    Reads (.ok (.success v (.cursor c i) j)) (.yields (.single v) c.remaining) := by
  rw [← ofValue_of_isComposite hv]
  exact reads_success (wellShaped_of_isComposite hv) hc

/-- A match without components. -/
theorem reads_empty (hc : c.Clear) :
    Reads (.ok (.success (.composite [] none) (.cursor c i) j)) (.yields .empty c.remaining) :=
  reads_success (wellShaped_tupleOf flat_nil) hc

/-- A match that produced flat components. -/
theorem reads_tupleOf {xs : List (Value P)} (hx : Flat xs) (hc : c.Clear) :
    Reads (.ok (.success (tupleOf xs) (.cursor c i) j)) (.yields ⟨xs, none⟩ c.remaining) := by
  rw [← ofValue_tupleOf hx]
  exact reads_success (wellShaped_tupleOf hx) hc

/-- What a cursor that is clear has left after its first token. -/
theorem Cursor.Clear.advance {t : Value P} {ts : List (Value P)} (hc : c.Clear)
    (hr : c.remaining = t :: ts) : ∃ d, c.advance = .ok d ∧ d.Clear ∧ d.remaining = ts := by
  obtain ⟨d, hd, hts, hdr, _⟩ := Cursor.advance_eq_tail hc.1 hr
  have hflat : Flat (t :: ts) := hr ▸ hc.2
  exact ⟨d, hd, ⟨hdr, hts ▸ (flat_cons.1 hflat).2⟩, hts⟩

/-- One token, if there is one. -/
theorem reads_takeToken (hc : c.Clear) :
    Reads (Run.ofExcept (Body.takeToken (.cursor c i)) : Run Unit P _).outcome
      (match c.remaining with
        | [] => .fails
        | t :: ts => .yields (.single t) ts) := by
  have he : c.atEnd = c.remaining.isEmpty := Cursor.atEnd_eq_isEmpty hc.1
  cases hr : c.remaining with
  | nil =>
    rw [hr] at he
    rw [Body.takeToken_of_atEnd he]
    rfl
  | cons t ts =>
    obtain ⟨d, hd, hdc, rfl⟩ := hc.advance hr
    have hflat : Flat (t :: d.remaining) := hr ▸ hc.2
    rw [hr] at he
    rw [Body.takeToken_of_current he (Cursor.current_eq_head hc.1 hr) hd]
    exact reads_single (flat_cons.1 hflat).1 hdc

/-- The end, if nothing is left. -/
theorem reads_takeEnd (hc : c.Clear) :
    Reads (Run.ofExcept (Body.takeEnd (.cursor c i)) : Run Unit P _).outcome
      (match c.remaining with
        | [] => .yields .empty []
        | _ :: _ => .fails) := by
  have he : c.atEnd = c.remaining.isEmpty := Cursor.atEnd_eq_isEmpty hc.1
  rw [Body.takeEnd_cursor, he]
  cases hr : c.remaining with
  | nil =>
    have h : Reads (.ok (.success (.composite [] none) (.cursor c i) none)) (.yields .empty []) :=
      hr ▸ reads_empty hc
    exact h
  | cons t ts => rfl

end

/-! ## Going on after a result -/

section

variable {α : Type} {r : Run Unit P (Value P)} {f : Option (Value P × Value P) → Run Unit P α}

theorem outcome_readMatch_of_fails (h : Reads r.outcome .fails) :
    (r >>= fun x => x.readMatch >>= f).outcome = (f none).outcome := by
  rw [Run.outcome_bind_of_ok h]
  rfl

theorem outcome_readMatch_of_success {v n : Value P} {j : Identity}
    (h : r.outcome = .ok (.success v n j)) :
    (r >>= fun x => x.readMatch >>= f).outcome = (f (some (v, n))).outcome := by
  rw [Run.outcome_bind_of_ok h]
  rfl

end

/-! ## Parsers made of parsers

`run` is any way to run the operands; what it does with them is read as verdicts already. -/

section

open Value Yield

variable {run : Parser P → Value P → Run Unit P (Value P)} {c : Cursor (Value P)} {i : Identity}

theorem reads_row_nil (hc : c.Clear) :
    ReadsRow (Body.runAll run [] (.cursor c i)).outcome (.yields .empty c.remaining) :=
  ⟨[], c, i, rfl, by simp, hc, rfl, rfl⟩

theorem reads_row_stops {p : Parser P} {ps : List (Parser P)} {v : Verdict P}
    (h : Reads (run p (.cursor c i)).outcome v) (hv : v.Stops) :
    ReadsRow (Body.runAll run (p :: ps) (.cursor c i)).outcome v := by
  unfold Body.runAll
  cases v with
  | fails => exact outcome_readMatch_of_fails h
  | raises e => exact Run.outcome_bind_of_error h _
  | yields y rest => exact hv.elim

/-- A match in front of a row puts its components in front. -/
theorem reads_row_cons {p : Parser P} {ps : List (Parser P)} {v : Value P}
    {d : Cursor (Value P)} {j k : Identity} {w : Verdict P}
    (h : (run p (.cursor c i)).outcome = .ok (.success v (.cursor d j) k)) (hv : v.WellShaped)
    (hw : ReadsRow (Body.runAll run ps (.cursor d j)).outcome w) :
    ReadsRow (Body.runAll run (p :: ps) (.cursor c i)).outcome (w.prepend v.components) := by
  unfold Body.runAll
  rw [outcome_readMatch_of_success h]
  cases w with
  | fails => exact Run.outcome_bind_of_ok hw _
  | raises e => exact Run.outcome_bind_of_error hw _
  | yields y rest =>
    obtain ⟨vs, e, l, hvs, hws, he, rfl, rfl⟩ := hw
    refine ⟨v :: vs, e, l, Run.outcome_bind_of_ok hvs _, ?_, he, by simp, rfl⟩
    intro u hu
    rcases List.mem_cons.1 hu with rfl | hu
    · exact hv
    · exact hws u hu

theorem reads_choice_head {p : Parser P} {ps : List (Parser P)} {v : Verdict P}
    (h : Reads (run p (.cursor c i)).outcome v) (hv : v ≠ .fails) :
    Reads (Body.runFirst run (p :: ps) (.cursor c i)).outcome v := by
  unfold Body.runFirst
  cases v with
  | fails => exact absurd rfl hv
  | raises e => exact Run.outcome_bind_of_error h _
  | yields y rest =>
    obtain ⟨v, d, j, k, ho, hvd⟩ := h
    exact ⟨v, d, j, k, Run.outcome_bind_of_ok ho _, hvd⟩

theorem reads_choice_tail {p : Parser P} {ps : List (Parser P)} {v : Verdict P}
    (h : Reads (run p (.cursor c i)).outcome .fails)
    (hv : Reads (Body.runFirst run ps (.cursor c i)).outcome v) :
    Reads (Body.runFirst run (p :: ps) (.cursor c i)).outcome v := by
  unfold Body.runFirst
  rw [Run.outcome_bind_of_ok h]
  exact hv

theorem reads_many_fails {p : Parser P} {rounds : Nat} (hc : c.Clear)
    (h : Reads (run p (.cursor c i)).outcome .fails) :
    ReadsMany (Body.runMany run p (rounds + 1) (.cursor c i)).outcome
      (.yields .empty c.remaining) :=
  ⟨[], c, i, outcome_readMatch_of_fails h, hc, rfl, rfl⟩

theorem reads_many_raises {p : Parser P} {rounds : Nat} {e : Error P}
    (h : Reads (run p (.cursor c i)).outcome (.raises e)) :
    ReadsMany (Body.runMany run p (rounds + 1) (.cursor c i)).outcome (.raises e) :=
  Run.outcome_bind_of_error h _

/-- A match in front of a repetition puts its value in front. -/
theorem reads_many_cons {p : Parser P} {rounds : Nat} {v : Value P} {d : Cursor (Value P)}
    {j k : Identity} {w : Verdict P}
    (h : (run p (.cursor c i)).outcome = .ok (.success v (.cursor d j) k))
    (hw : ReadsMany (Body.runMany run p rounds (.cursor d j)).outcome w) :
    ReadsMany (Body.runMany run p (rounds + 1) (.cursor c i)).outcome (w.prepend [v]) := by
  unfold Body.runMany
  rw [outcome_readMatch_of_success h]
  cases w with
  | fails => exact hw.elim
  | raises e => exact Run.outcome_bind_of_error hw _
  | yields y rest =>
    obtain ⟨vs, e, l, hvs, he, rfl, rfl⟩ := hw
    exact ⟨v :: vs, e, l, Run.outcome_bind_of_ok hvs _, he, rfl, rfl⟩

end

/-! ## Bodies -/

section

open Value Yield

variable {invoke : Invoke Unit P} {rounds : Nat} {c : Cursor (Value P)} {i : Identity}

theorem reads_optional {p : Parser P} {v : Verdict P} (hc : c.Clear)
    (h : Reads (invoke (.parser p) [.cursor c i]).outcome v) :
    Reads ((Body.optional p).apply invoke rounds (.cursor c i)).outcome
      (v.orAbsent c.remaining) := by
  unfold Body.apply
  match v with
  | .fails =>
    rw [outcome_readMatch_of_fails h]
    exact reads_single rfl hc
  | .raises e => exact Run.outcome_bind_of_error h _
  | .yields y rest =>
    obtain ⟨v, d, j, k, ho, hv, hd, rfl, rfl⟩ := h
    rw [outcome_readMatch_of_success ho]
    change Reads _ (.yields (.single (.present (ofValue v).value none)) d.remaining)
    rw [value_ofValue hv]
    exact reads_single rfl hd

theorem reads_sequence {ps : List (Parser P)} {v : Verdict P}
    (h : ReadsRow (Body.runAll (fun p c => invoke (.parser p) [c]) ps (.cursor c i)).outcome v) :
    Reads ((Body.sequence ps).apply invoke rounds (.cursor c i)).outcome v := by
  unfold Body.apply
  match v with
  | .fails => exact Run.outcome_bind_of_ok h _
  | .raises e => exact Run.outcome_bind_of_error h _
  | .yields y rest =>
    obtain ⟨vs, d, j, ho, hvs, hd, rfl, rfl⟩ := h
    rw [Run.outcome_bind_of_ok ho]
    change Reads (.ok (.success (concat vs) (.cursor d j) none)) _
    rw [concat_eq_tupleOf hvs]
    exact reads_tupleOf (flat_flatMap_components hvs) hd

/-- What a repetition does with its items: one list of them goes through the collection. -/
def gather (invoke : Invoke Unit P) (f : Callable P) (items : List (Value P) × Value P) :
    Run Unit P (Value P) := do
  let collected ← invoke f [.list items.1 none]
  return .success collected items.2 none

theorem apply_repeat0 (p : Parser P) (f : Callable P) (c : Value P) :
    (Body.repeat0 p f).apply invoke rounds c =
      Body.runMany (fun p c => invoke (.parser p) [c]) p rounds c >>= gather invoke f := by
  simp only [Body.apply, Run.own_unit]
  rfl

theorem reads_repeat1_stops {p : Parser P} {f : Callable P} {v : Verdict P}
    (h : Reads (invoke (.parser p) [.cursor c i]).outcome v) (hv : v.Stops) :
    Reads ((Body.repeat1 p f).apply invoke rounds (.cursor c i)).outcome v := by
  unfold Body.apply
  match v with
  | .fails => exact outcome_readMatch_of_fails h
  | .raises e => exact Run.outcome_bind_of_error h _

/-- Once the first match is there, it is one round of a repetition. -/
theorem outcome_repeat1_of_success {p : Parser P} {f : Callable P} {v n c : Value P}
    {k : Identity} (h : (invoke (.parser p) [c]).outcome = .ok (.success v n k)) :
    ((Body.repeat1 p f).apply invoke rounds c).outcome =
      (Body.runMany (fun p c => invoke (.parser p) [c]) p (rounds + 1) c >>=
        gather invoke f).outcome := by
  simp only [Body.apply, Body.runMany, Run.own_unit, bind_assoc]
  rw [outcome_readMatch_of_success h, outcome_readMatch_of_success h]
  simp only [bind_assoc]
  rfl

theorem reads_gather_raises {r : Run Unit P (List (Value P) × Value P)} {f : Callable P}
    {e : Error P} (h : ReadsMany r.outcome (.raises e)) :
    Reads (r >>= gather invoke f).outcome (.raises e) :=
  Run.outcome_bind_of_error h _

theorem reads_gather {r : Run Unit P (List (Value P) × Value P)} {f : Callable P}
    {items : List (Value P)} {a : Except (Error P) (Value P)}
    (hr : r.outcome = .ok (items, .cursor c i)) (hc : c.Clear)
    (ha : (invoke f [.list items none]).outcome = a.mapError .raised)
    (hf : ∀ x, a = .ok x → x.isComposite = false) :
    Reads (r >>= gather invoke f).outcome (.ofAnswer c.remaining a) := by
  rw [Run.outcome_bind_of_ok hr]
  match a with
  | .error e => exact Run.outcome_bind_of_error ha _
  | .ok x =>
    refine Eq.mpr (congrArg (Reads · _) (Run.outcome_bind_of_ok ha _)) ?_
    exact reads_success (wellShaped_of_isComposite (hf x rfl)) hc

/-! ## Mappers -/

theorem reads_map_stops {p : Parser P} {m : Mapper P} {v : Verdict P}
    (h : Reads (invoke (.parser p) [.cursor c i]).outcome v) (hv : v.Stops) :
    Reads ((Body.map p m).apply invoke rounds (.cursor c i)).outcome v := by
  unfold Body.apply
  match v with
  | .fails =>
    rw [Run.outcome_bind_of_ok h]
    rfl
  | .raises e => exact Run.outcome_bind_of_error h _

theorem outcome_map_of_success {p : Parser P} {m : Mapper P} {v n c : Value P} {k : Identity}
    (h : (invoke (.parser p) [c]).outcome = .ok (.success v n k)) :
    ((Body.map p m).apply invoke rounds c).outcome =
      (Body.runMapper invoke m (.success v n k)).outcome := by
  unfold Body.apply
  rw [Run.outcome_bind_of_ok h]
  rfl

/-- An answer that is no optional value is an error, if it can be shown. -/
theorem outcome_badOutcome {α : Type} (w : Value P) :
    (Run.ofExcept w.shown >>= fun w => Run.raise (.badOutcome w) : Run Unit P α).outcome =
      .error (.raised (if w.isWritable then .badOutcome w else .mistyped)) := by
  unfold shown
  split <;> rfl

variable {v : Value P} {k : Identity} {m : Mapper P} {a : Except (Error P) (Value P)}

/-- A mapper that cannot refuse hands on what it answers. -/
theorem reads_runMapper (hc : c.Clear) (hm : m.isFallible = false)
    (ha : (m.apply invoke v.components).outcome = a.mapError .raised)
    (hw : ∀ w, a = .ok w → w.unwrap.WellShaped) :
    Reads (Body.runMapper invoke m (.success v (.cursor c i) k)).outcome
      (.ofAnswer c.remaining (a.map unwrap)) := by
  unfold Body.runMapper
  rw [valueField_success, Run.ofExcept, Run.outcome_bind_of_ok rfl]
  match a with
  | .error e => exact Run.outcome_bind_of_error ha _
  | .ok w =>
    rw [Run.outcome_bind_of_ok ha, hm]
    exact reads_success (hw w rfl) hc

/-- A mapper that can refuse hands on what is in its answer. -/
theorem reads_runMapper_fallible (hc : c.Clear) (hm : m.isFallible = true)
    (ha : (m.apply invoke v.components).outcome = a.mapError .raised)
    (hw : ∀ x j, a = .ok (.present x j) → x.unwrap.WellShaped) :
    Reads (Body.runMapper invoke m (.success v (.cursor c i) k)).outcome
      (.ofOptional c.remaining a) := by
  unfold Body.runMapper
  rw [valueField_success, Run.ofExcept, Run.outcome_bind_of_ok rfl]
  match a with
  | .error e => exact Run.outcome_bind_of_error ha _
  | .ok w =>
    rw [Run.outcome_bind_of_ok ha, if_pos hm]
    cases w with
    | present x j => exact reads_success (hw x j rfl) hc
    | absent => rfl
    | anotherAbsent _ => rfl
    | _ => exact outcome_badOutcome _

/-- A filter passes flat components on as they are. -/
theorem reads_filter {f : Callable P} (hc : c.Clear) (hv : v.WellShaped)
    (ha : (invoke f v.components).outcome = a.mapError .raised) :
    Reads (Body.runMapper invoke (.filter f) (.success v (.cursor c i) k)).outcome
      (.ofTest ⟨v.components, none⟩ c.remaining a) := by
  have hw := wellShaped_tupleOf hv.flat
  match a with
  | .error e =>
    exact reads_runMapper_fallible (a := .error e) hc rfl (Run.outcome_bind_of_error ha _)
      fun _ _ h => by contradiction
  | .ok b =>
    have hb : ((Mapper.filter f).apply invoke v.components).outcome =
        .ok (if b.isTruthy then .present (tupleOf v.components) none else .absent) :=
      Run.outcome_bind_of_ok ha _
    rw [Verdict.ofTest]
    split at hb
    · have h := reads_runMapper_fallible (i := i) (k := k)
        (a := .ok (.present (tupleOf v.components) none)) hc rfl hb
        fun x j hx => by cases hx; rwa [hw.unwrap_eq]
      rw [if_pos ‹_›]
      rwa [Verdict.ofOptional, hw.unwrap_eq, ofValue_tupleOf hv.flat] at h
    · rw [if_neg ‹_›]
      exact reads_runMapper_fallible (a := .ok .absent) hc rfl hb fun _ _ h => by cases h

/-- A selection hands on the chosen components. -/
theorem reads_select (hc : c.Clear) (hv : v.WellShaped) {indices : List Nat}
    {ys : List (Value P)} (h : (indices.mapM fun i => v.components[i]?) = some ys) :
    Reads (Body.runMapper invoke (.select indices) (.success v (.cursor c i) k)).outcome
      (.yields ⟨ys, none⟩ c.remaining) := by
  have hf : Flat ys := hv.flat.of_subset (Mapper.subset_of_mapM h)
  have hw : (tupleOf ys).unwrap.WellShaped := by
    rw [(wellShaped_tupleOf hf).unwrap_eq]
    exact wellShaped_tupleOf hf
  have ha : ((Mapper.select indices).apply invoke v.components).outcome = .ok (tupleOf ys) := by
    rw [Mapper.apply, Mapper.choose_eq, h]
    rfl
  have hs := reads_runMapper (i := i) (k := k) (m := .select indices) (a := .ok (tupleOf ys)) hc rfl
    ha fun w hx => by cases hx; exact hw
  rwa [Except.map, Verdict.ofAnswer, (wellShaped_tupleOf hf).unwrap_eq, ofValue_tupleOf hf] at hs

/-- A selection from too few components is an error. -/
theorem reads_beyond (hc : c.Clear) {indices : List Nat}
    (h : (indices.mapM fun i => v.components[i]?) = none) :
    Reads (Body.runMapper invoke (.select indices) (.success v (.cursor c i) k)).outcome
      (.raises .outOfRange) :=
  reads_runMapper (a := .error .outOfRange) hc rfl (by rw [Mapper.apply, Mapper.choose_eq, h]; rfl)
    fun _ h => by contradiction

end

end ParserAlgebra
