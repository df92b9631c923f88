import ParserAlgebra.Proofs.Holds
import ParserAlgebra.Proofs.Onward

/-!
# Proofs/Consumption/Legs — what parsers made of parsers consume

    c ──m₁──▸ c₁ ──m₂──▸ c₂ ── … ──mₙ──▸ d        m₁ + … + mₙ tokens from c to d

Parsers that are run one after the other go their way in legs: each starts where the one before it
stopped, and with what that left of the supply.  What a body consumes is accounted for by the legs
of the runs that it is made of (`Body.Account`): a sequence has one leg for each member, a
repetition one for each round, and an option that is not there has none.
-/

namespace ParserAlgebra

variable {σ P α : Type}

/-- **A result that moves on**: if it is a match, its cursor is on the same stream and no tokens, or
some, further on. -/
def Value.MovesOn (c : Cursor (Value P)) (x : Value P) : Prop :=
  ∀ v n k, x = .success v n k → ∃ d j m, n = .cursor d j ∧ c.Onward m d

/-- **Legs**: the runs of some parsers one after the other, with what each of them consumed. -/
inductive Legs (run : Parser P → Value P → Run σ P (Value P)) :
    List (Parser P) → Value P → σ → List Nat → Value P → σ → Prop
  | nil {n s} : Legs run [] n s [] n s
  | cons {p ps} {c d : Cursor (Value P)} {i v j k s s' m ms n s''}
      (h : (run p (.cursor c i)).Gives s (.success v (.cursor d j) k) s') (hm : c.Onward m d)
      (hs : Legs run ps (.cursor d j) s' ms n s'') :
    Legs run (p :: ps) (.cursor c i) s (m :: ms) n s''

/-- **Rounds**: legs of one parser, up to where it does not match. -/
def Rounds (run : Parser P → Value P → Run σ P (Value P)) (p : Parser P) (c : Value P) (s : σ)
    (ms : List Nat) (d : Value P) : Prop :=
  ∃ s', Legs run (.replicate ms.length p) c s ms d s' ∧
    ∃ x s'', (run p d).Gives s' x s'' ∧ x.isTruthy = false

/-- All legs together. -/
def Legs.total (ms : List Nat) : Nat := ms.foldr (· + ·) 0

/-- **How many tokens a body consumes**, by the runs that it is made of. -/
def Body.Account (run : Parser P → Value P → Run σ P (Value P)) (c : Value P) (s : σ) (m : Nat)
    (d : Cursor (Value P)) (v : Value P) : Body P → Prop
  | optional _ => v = .absent → m = 0
  | sequence ps => ∃ ms j s', Legs run ps c s ms (.cursor d j) s' ∧ m = Legs.total ms
  | repeat0 p _ | repeat1 p _ => ∃ ms j, Rounds run p c s ms (.cursor d j) ∧ m = Legs.total ms
  | _ => True

/-- A result that moves on, with an account of how far. -/
def Value.Accounted (run : Parser P → Value P → Run σ P (Value P)) (b : Body P)
    (c : Cursor (Value P)) (i : Identity) (s : σ) (x : Value P) : Prop :=
  ∀ v n k, x = .success v n k →
    ∃ d j m, n = .cursor d j ∧ c.Onward m d ∧ b.Account run (.cursor c i) s m d v

variable {run : Parser P → Value P → Run σ P (Value P)}

theorem Value.Accounted.movesOn {b : Body P} {c : Cursor (Value P)} {i : Identity} {s : σ}
    {x : Value P} (h : x.Accounted run b c i s) : x.MovesOn c := by
  intro v n k hx
  obtain ⟨d, j, m, hn, hm, _⟩ := h v n k hx
  exact ⟨d, j, m, hn, hm⟩

/-- **The legs add up.** -/
theorem Legs.onward {ps : List (Parser P)} {c d : Cursor (Value P)} {i j : Identity} {s s' : σ}
    {ms : List Nat} (h : Legs run ps (.cursor c i) s ms (.cursor d j) s') (hc : c.IsIndexed) :
    c.Onward (total ms) d := by
  generalize hn : Value.cursor c i = n at h
  generalize hn' : Value.cursor d j = n' at h
  induction h generalizing c i with
  | nil =>
    cases hn.trans hn'.symm
    exact Cursor.onward_zero hc.exists_place
  | cons h hm hs ih =>
    cases hn
    exact hm.trans (ih (hm.isIndexed hc) rfl hn')

/-! ## Numbering -/

section

variable [Supply σ] {c : Cursor (Value P)}

/-- What is absent once it is numbered was absent before. -/
theorem Value.eq_absent_of_numbered {v : Value P} {s : σ} (h : (v.numbered s).1 = .absent) :
    v = .absent := by
  unfold Value.numbered at h
  split at h <;> first | contradiction | exact h

theorem Value.MovesOn.numbered {x : Value P} (h : x.MovesOn c) (s : σ) :
    (x.numbered s).1.MovesOn c := by
  intro v n k hx
  obtain ⟨v', n', k', rfl, ⟨rfl, rfl⟩ | ⟨s', rfl, rfl⟩⟩ := exists_of_numbered_success hx
  · exact h _ _ _ rfl
  · obtain ⟨d, j, m, rfl, hm⟩ := h _ _ _ rfl
    exact ⟨d, _, m, congrArg Prod.fst (numbered_cursor d j s'), hm⟩

/-- An account only asks of the value whether it is absent. -/
theorem Value.Accounted.numbered {b : Body P} {i : Identity} {s : σ} {x : Value P}
    (h : x.Accounted run b c i s) (s' : σ) : (x.numbered s').1.Accounted run b c i s := by
  intro v n k hx
  obtain ⟨v', n', k', rfl, ⟨rfl, rfl⟩ | ⟨t, rfl, rfl⟩⟩ := exists_of_numbered_success hx
  · exact h _ _ _ rfl
  · obtain ⟨d, j, m, rfl, hm, ha⟩ := h _ _ _ rfl
    refine ⟨d, _, m, congrArg Prod.fst (numbered_cursor d j t), hm, ?_⟩
    cases b with
    | optional p => exact fun hv => ha (eq_absent_of_numbered hv)
    | _ => exact ha

end

/-! ## Parsers made of parsers -/

open Run

/-- **A safe parser**: from an index, its results move on, and it raises nothing but what satisfies
`E`. -/
def Safe (run : Parser P → Value P → Run σ P (Value P)) (E : Error P → Prop) (p : Parser P) :
    Prop :=
  ∀ c i s, c.IsIndexed → (run p (.cursor c i)).Holds s (fun x _ => x.MovesOn c) E

/-- What comes after a result holds, if it does so after no match, and after a match from further
on. -/
theorem Run.Holds.readMatch {r : Run σ P (Value P)} {s : σ} {c : Cursor (Value P)}
    {E : Error P → Prop} {Q : α → σ → Prop} {f : Option (Value P × Value P) → Run σ P α}
    (h : r.Holds s (fun x _ => x.MovesOn c) E) (hE : E .missing)
    (hnone : ∀ x s', r.Gives s x s' → x.isTruthy = false → (f none).Holds s' Q E)
    (hsome : ∀ v d j k m s', r.Gives s (.success v (.cursor d j) k) s' → c.Onward m d →
      (f (some (v, .cursor d j))).Holds s' Q E) :
    (r >>= fun x => x.readMatch >>= f).Holds s Q E := by
  refine h.bind fun x s' hx hmoves => ?_
  unfold Value.readMatch
  split
  · rw [bind_assoc]
    cases hv : x.valueField with
    | error e => exact holds_raise (Value.eq_missing_of_valueField hv ▸ hE)
    | ok v =>
      cases hn : x.nextField with
      | error e => exact holds_raise (Value.eq_missing_of_nextField hn ▸ hE)
      | ok n =>
        obtain ⟨v', k, rfl⟩ := Value.exists_success_of_nextField hn
        obtain ⟨d, j, m, rfl, hm⟩ := hmoves v' n k rfl
        cases hv
        exact hsome v d j k m s' hx hm
  · exact hnone x s' hx (Bool.eq_false_iff.2 ‹_›)

section

variable {c : Cursor (Value P)} {i : Identity} {s : σ} {E : Error P → Prop} (hc : c.IsIndexed)
  (hE : E .missing)

include hc hE

/-- A row goes its way in legs. -/
theorem holds_runAll {ps : List (Parser P)} (h : ∀ p ∈ ps, Safe run E p) :
    (Body.runAll run ps (.cursor c i)).Holds s (fun a s' => ∀ vs n, a = some (vs, n) →
      ∃ ms d j, n = .cursor d j ∧ Legs run ps (.cursor c i) s ms n s') E := by
  induction ps generalizing c i s with
  | nil =>
    refine holds_pure fun vs n hn => ?_
    cases hn
    exact ⟨[], c, i, rfl, .nil⟩
  | cons p ps ih =>
    obtain ⟨hp, hps⟩ := List.forall_mem_cons.1 h
    unfold Body.runAll
    refine (hp c i s hc).readMatch hE (fun x s' _ _ => holds_pure nofun) ?_
    intro v d j k m s' hv hm
    refine (ih (hm.isIndexed hc) hps).bind fun a s'' _ ha => ?_
    match a with
    | none => exact holds_pure nofun
    | some (vs, n) =>
      refine holds_pure fun vs' n' hn => ?_
      cases hn
      obtain ⟨ms, e, l, rfl, hlegs⟩ := ha vs n rfl
      exact ⟨m :: ms, e, l, rfl, .cons hv hm hlegs⟩

omit hE in
/-- The first match among some is the result of one of them. -/
theorem holds_runFirst {ps : List (Parser P)} (h : ∀ p ∈ ps, Safe run E p) :
    (Body.runFirst run ps (.cursor c i)).Holds s (fun x _ => x.MovesOn c) E := by
  induction ps generalizing s with
  | nil => exact holds_pure nofun
  | cons p ps ih =>
    obtain ⟨hp, hps⟩ := List.forall_mem_cons.1 h
    unfold Body.runFirst
    refine (hp c i s hc).bind fun x s' _ hx => ?_
    split
    · exact holds_pure hx
    · exact ih hps

/-- A repetition goes its way in rounds. -/
theorem holds_runMany {p : Parser P} (h : Safe run E p) (rounds : Nat) :
    (Body.runMany run p rounds (.cursor c i)).Holds s (fun a _ =>
      ∃ ms d j, a.2 = .cursor d j ∧ Rounds run p (.cursor c i) s ms (.cursor d j)) E := by
  induction rounds generalizing c i s with
  | zero => exact holds_exhaust
  | succ rounds ih =>
    unfold Body.runMany
    refine (h c i s hc).readMatch hE ?_ ?_
    · exact fun x s' hx ht => holds_pure ⟨[], c, i, rfl, s, .nil, x, s', hx, ht⟩
    · intro v d j k m s' hv hm
      refine (ih (hm.isIndexed hc)).bind fun a s'' _ ha => ?_
      obtain ⟨ms, e, l, ha, s₃, hlegs, hstop⟩ := ha
      exact holds_pure ⟨m :: ms, e, l, ha, s₃, .cons hv hm hlegs, hstop⟩

end

end ParserAlgebra
