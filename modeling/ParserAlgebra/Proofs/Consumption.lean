import ParserAlgebra.Catalogue.Readers
import ParserAlgebra.Proofs.Composed
import ParserAlgebra.Proofs.Consumption.Complaints
import ParserAlgebra.Proofs.Consumption.Legs

/-!
# Proofs/Consumption — parsers go on in their stream, and stay inside

    leaves go on and do not complain   ⟹   so does whatever is composed of them

A parser that matches leaves the cursor on the stream that it was given, no tokens or some further
on, and never beyond the end.  What a composed parser consumes is accounted for by its parts: the
members of a sequence, the rounds of a repetition.  And no cursor ever complains: if such an error
comes up at all, a mapper or a collection raised it, and a function of the host behind that.
-/

namespace ParserAlgebra

variable {σ P : Type} [Supply σ] [Primitive P]

open Run

section

variable (σ) (ctx : Context P)

/-- **An error that a parser's functions raise**: one of its mappers, called with the components of
what the operand produced, or one of its collections, called with a list. -/
inductive Provokes (e : Error P) : Body P → Prop
  | mapper {p m fuel c s x s' v} (hx : (p.run ctx fuel c : Run σ P _).Gives s x s')
      (hv : x.valueField = .ok v)
      (h : ((m.apply (call ctx fuel) v.components : Run σ P _).start s').outcome =
        .error (.raised e)) : Provokes e (.map p m)
  | repeat0 {p f fuel xs i s}
      (h : ((call ctx fuel f [.list xs i] : Run σ P _).start s).outcome = .error (.raised e)) :
    Provokes e (.repeat0 p f)
  | repeat1 {p f fuel xs i s}
      (h : ((call ctx fuel f [.list xs i] : Run σ P _).start s).outcome = .error (.raised e)) :
    Provokes e (.repeat1 p f)
  | part {b q} (hq : q ∈ b.parts) (h : Provokes e q.body) : Provokes e b
  | delegate {f q} (hf : Delegates ctx.rules f q) (h : Provokes e q.body) : Provokes e (.raw f)

/-- An error that is no complaint, or that the functions of the parser raise. -/
def Excused (b : Body P) (e : Error P) : Prop := e.IsComplaint → Provokes σ ctx e b

/-- **A body that keeps to its stream**: from an index it goes on, with all the fuel there is, and
raises no complaint. -/
def Body.Steady (b : Body P) : Prop :=
  ∀ fuel c i (s : σ), c.IsIndexed → (b.apply (call ctx fuel) fuel (.cursor c i)).Holds s
    (fun x _ => x.MovesOn c) fun e => ¬e.IsComplaint

end

variable {ctx : Context P} {c : Cursor (Value P)} {i : Identity} {s : σ}

theorem excused_of_calm {b : Body P} {e : Error P} (h : ¬e.IsComplaint) : Excused σ ctx b e :=
  fun he => absurd he h

theorem excused_missing (b : Body P) : Excused σ ctx b .missing :=
  excused_of_calm (Error.not_isComplaint nofun)

/-! ## Bodies -/

/-- How operands are run. -/
abbrev runs (ctx : Context P) (fuel : Nat) (p : Parser P) (c : Value P) : Run σ P (Value P) :=
  p.run ctx fuel c

/-- A part that is safe is safe as a part. -/
theorem Safe.part {b : Body P} {q : Parser P} {fuel : Nat} (hq : q ∈ b.parts)
    (h : Safe (runs (σ := σ) ctx fuel) (Excused σ ctx q.body) q) :
    Safe (runs (σ := σ) ctx fuel) (Excused σ ctx b) q :=
  fun c i s hc => (h c i s hc).mono (fun _ _ _ hx => hx) fun _ he hcomplaint =>
    .part hq (he hcomplaint)

omit [Supply σ] [Primitive P] in
/-- A token is one token further on. -/
theorem holds_takeToken (hc : c.IsIndexed) :
    (ofExcept (Body.takeToken (.cursor c i)) : Run σ P _).Holds s (fun x _ => x.MovesOn c)
      fun e => ¬e.IsComplaint := by
  refine holds_ofExcept (fun x hx => ?_) (calm_takeToken _)
  obtain ⟨_, _, ⟨⟩, rfl | ⟨t, e, _, he, rfl⟩⟩ := Body.takeToken_eq_ok hx
  · exact nofun
  · rintro v n k ⟨⟩
    exact ⟨e, none, 1, rfl, Cursor.onward_advance he hc.exists_place⟩

/-- A list goes through a collection, and the cursor stays. -/
theorem holds_collect {b : Body P} {f : Callable P} {fuel : Nat} {n : Value P}
    {vs : List (Value P)} {Q : Value P → Prop} (hQ : ∀ x, Q (.success x n none))
    (hf : ∀ e xs i (s : σ), ((call ctx fuel f [.list xs i]).start s).outcome =
      .error (.raised e) → Provokes σ ctx e b) :
    (own (.list vs none) >>= fun xs => call ctx fuel f [xs] >>= fun x =>
      pure (.success x n none) : Run σ P (Value P)).Holds s (fun x _ => Q x) (Excused σ ctx b) := by
  have numbered : ∃ xs i, ((Value.list vs none).numbered s).1 = Value.list xs i := by
    rw [Value.numbered]
    exact ⟨_, _, rfl⟩
  refine (holds_own (Q := fun x _ => ∃ xs i, x = .list xs i) numbered).bind ?_
  rintro _ s' _ ⟨xs, i, rfl⟩
  have collected : (call ctx fuel f [.list xs i]).Holds s' (fun _ _ => True) (Excused σ ctx b) :=
    (holds_self _ s').mono (fun _ _ _ h => h) fun e he _ => hf e xs i s' he
  exact collected.bind fun x s'' _ _ => holds_pure (hQ x)

/-- What a mapper makes of a match is no further on than the match. -/
theorem holds_runMapper {p : Parser P} {m : Mapper P} {fuel : Nat} {x : Value P} {s' : σ}
    {n : Value P} (hx : (p.run ctx fuel n).Gives s x s') (hmoves : x.MovesOn c) :
    (Body.runMapper (call ctx fuel) m x).Holds s' (fun x _ => x.MovesOn c)
      (Excused σ ctx (.map p m)) := by
  have calm {α : Type} {a : Except (Error P) α} (ha : Calm a) (s : σ) :
      (ofExcept a : Run σ P α).Holds s (fun v t => a = .ok v ∧ t = s)
        (Excused σ ctx (.map p m)) :=
    holds_ofExcept (fun v hv => ⟨hv, rfl⟩) fun e he => excused_of_calm (ha e he)
  have next (v : Value P) (s : σ) : (ofExcept x.nextField >>= fun n =>
      pure (.success v n none) : Run σ P (Value P)).Holds s (fun x _ => x.MovesOn c)
        (Excused σ ctx (.map p m)) := by
    refine (calm (Value.calm_nextField x) s).bind ?_
    rintro n s' _ ⟨hn, _⟩
    obtain ⟨w, k, rfl⟩ := Value.exists_success_of_nextField hn
    cases hn
    refine holds_pure ?_
    rintro _ _ _ ⟨⟩
    exact hmoves _ _ _ rfl
  refine (calm (Value.calm_valueField x) s').bind ?_
  rintro v _ _ ⟨hv, rfl⟩
  have mapped : (m.apply (call ctx fuel) v.components).Holds _ (fun _ _ => True)
      (Excused σ ctx (.map p m)) :=
    (holds_self _ _).mono (fun _ _ _ h => h) fun e he _ => .mapper hx hv he
  refine mapped.bind fun w s'' _ _ => ?_
  split
  · split
    · exact next _ _
    · exact holds_pure nofun
    · exact holds_pure nofun
    · refine (calm (Value.calm_shown w) s'').bind fun w s₃ _ _ => holds_raise ?_
      exact excused_of_calm (Error.not_isComplaint nofun)
  · exact next _ _

/-- **A body goes on in its stream**, and its parts account for how far, if its parts go on and it
is no function of the cursor. -/
theorem holds_body {b : Body P} {fuel : Nat} (hb : ∀ f, b ≠ .raw f)
    (hp : ∀ q ∈ b.parts, Safe (runs (σ := σ) ctx fuel) (Excused σ ctx q.body) q)
    (hc : c.IsIndexed) : (b.apply (call ctx fuel) fuel (.cursor c i)).Holds s
      (fun x _ => x.Accounted (runs ctx fuel) b c i s) (Excused σ ctx b) := by
  have part {q : Parser P} (hq : q ∈ b.parts) := Safe.part hq (hp q hq)
  have parts : ∀ q ∈ b.parts, Safe (runs (σ := σ) ctx fuel) (Excused σ ctx b) q :=
    fun q hq => part hq
  have missing : Excused σ ctx b .missing := excused_missing b
  have here := Cursor.onward_zero hc.exists_place
  cases b with
  | succeed =>
    refine holds_pure ?_
    rintro v n k ⟨⟩
    exact ⟨c, i, 0, rfl, here, trivial⟩
  | fail => exact holds_pure nofun
  | one =>
    refine (holds_takeToken hc).mono (fun x _ _ hx v n k hv => ?_) fun _ => excused_of_calm
    obtain ⟨d, j, m, hn, hm⟩ := hx v n k hv
    exact ⟨d, j, m, hn, hm, trivial⟩
  | endOfInput =>
    refine holds_pure ?_
    split
    · rintro v n k ⟨⟩
      exact ⟨c, i, 0, rfl, here, trivial⟩
    · exact nofun
  | optional p =>
    refine (part (q := p) (by simp [Body.parts]) c i s hc).readMatch missing ?_ ?_
    · refine fun x s' _ _ => holds_pure ?_
      rintro v n k ⟨⟩
      exact ⟨c, i, 0, rfl, here, fun _ => rfl⟩
    · intro v d j k m s' _ hm
      refine holds_pure ?_
      rintro v n k ⟨⟩
      exact ⟨d, j, m, rfl, hm, nofun⟩
  | sequence ps =>
    refine (holds_runAll hc missing parts).bind fun a s' _ ha => ?_
    match a with
    | none => exact holds_pure nofun
    | some (vs, n) =>
      obtain ⟨ms, d, j, rfl, hlegs⟩ := ha vs n rfl
      refine holds_pure ?_
      rintro v n k ⟨⟩
      exact ⟨d, j, Legs.total ms, rfl, hlegs.onward hc, ms, j, s', hlegs, rfl⟩
  | alternative ps =>
    refine (holds_runFirst hc parts).mono (fun x _ _ hx v n k hv => ?_) fun _ he => he
    obtain ⟨d, j, m, hn, hm⟩ := hx v n k hv
    exact ⟨d, j, m, hn, hm, trivial⟩
  | repeat0 p f =>
    have hpart := part (q := p) (by simp [Body.parts])
    refine (holds_runMany hc missing hpart fuel).bind fun a s' _ ha => ?_
    obtain ⟨vs, _⟩ := a
    obtain ⟨ms, d, j, rfl, hrounds⟩ := ha
    refine holds_collect (fun x v n k hv => ?_) fun e xs i s he => .repeat0 he
    cases hv
    obtain ⟨_, hlegs, _⟩ := id hrounds
    exact ⟨d, j, Legs.total ms, rfl, hlegs.onward hc, ms, j, hrounds, rfl⟩
  | repeat1 p f =>
    have hpart := part (q := p) (by simp [Body.parts])
    refine (hpart c i s hc).readMatch missing (fun x s' _ _ => holds_pure nofun) ?_
    intro v d j k m s' hv hm
    refine (holds_runMany (hm.isIndexed hc) missing hpart fuel).bind fun a s' _ ha => ?_
    obtain ⟨vs, _⟩ := a
    obtain ⟨ms, e, l, rfl, s₂, hlegs, hstop⟩ := ha
    refine holds_collect (fun x w n k hw => ?_) fun e xs i s he => .repeat1 he
    cases hw
    have all := Legs.cons hv hm hlegs
    exact ⟨e, l, Legs.total (m :: ms), rfl, all.onward hc, m :: ms, l, ⟨s₂, all, hstop⟩, rfl⟩
  | map p m =>
    refine (part (q := p) (by simp [Body.parts]) c i s hc).bind fun x s' hx hmoves => ?_
    split
    · refine (holds_runMapper hx hmoves).mono (fun x _ _ hx v n k hv => ?_) fun _ he => he
      obtain ⟨d, j, m, hn, hm⟩ := hx v n k hv
      exact ⟨d, j, m, hn, hm, trivial⟩
    · exact holds_pure nofun
  | raw f => exact absurd rfl (hb f)

/-! ## Calls -/

omit [Supply σ] [Primitive P] in
/-- The log keeps a result as it is. -/
theorem holds_logged {r : Run σ P (Value P)} {Q : Value P → Prop} {E : Error P → Prop}
    (hr : r.Holds s (fun x _ => Q x) E) (hE : ∀ e, ¬e.IsComplaint → E e) (handler : Handler)
    (p : Parser P) (n : Value P) : (p.logged handler n r).Holds s (fun x _ => Q x) E := by
  have recorded (entry : LogEntry P) (s : σ) :
      (record handler entry : Run σ P Unit).Holds s (fun _ t => t = s) E :=
    holds_record rfl (hE _ (Error.not_isComplaint nofun))
  refine (recorded _ s).bind ?_
  rintro _ _ _ rfl
  refine hr.bind fun x t _ hx => ?_
  split
  · have value : (ofExcept x.valueField : Run σ P _).Holds t (fun _ _ => True) E :=
      holds_ofExcept (fun _ _ => trivial) fun e he => hE e (Value.calm_valueField x e he)
    exact value.bind fun v t _ _ => (recorded _ t).bind fun _ t _ _ => holds_pure hx
  · exact (recorded _ t).bind fun _ t _ _ => holds_pure hx

/-- What holds of a body, and does not depend on numbers, holds of a call. -/
theorem holds_call_of_body {p : Parser P} {fuel : Nat} {n : Value P} {Q : Value P → Prop}
    {E : Error P → Prop} (hQ : ∀ x (t : σ), Q x → Q (x.numbered t).1)
    (hE : ∀ e, ¬e.IsComplaint → E e)
    (h : (p.body.apply (call ctx fuel) fuel n : Run σ P _).Holds s (fun x _ => Q x) E) :
    (p.run ctx (fuel + 1) n : Run σ P _).Holds s (fun x _ => Q x) E := by
  have applied : (p.apply (call ctx fuel) fuel ctx n : Run σ P _).Holds s (fun x _ => Q x) E := by
    unfold Parser.apply
    split
    · exact holds_logged h hE ctx.handler p n
    · exact h
  exact applied.bind fun x t _ hx => holds_own (hQ x t hx)

omit [Primitive P] in
/-- Taking hold of a cursor leaves it where it is. -/
theorem holds_ownAll_cursor {E : Error P → Prop} : (ownAll [Value.cursor c i] : Run σ P _).Holds s
    (fun xs _ => ∃ j, xs = [.cursor c j]) E := by
  refine ⟨?_, fun e he => by contradiction⟩
  rintro xs t ⟨hxs, _⟩
  cases hxs
  refine ⟨(Value.settle i s).1, ?_⟩
  simp only [Value.numberedAll, Value.numbered_cursor]

/-- A function that only delegates goes on as the parser does, with at most one call in between. -/
theorem holds_delegates {f : Value P} {q : Parser P} (hf : Delegates ctx.rules f q) (fuel : Nat)
    (h : ∀ n ≤ fuel, Safe (runs (σ := σ) ctx n) (Excused σ ctx q.body) q) (hc : c.IsIndexed) :
    (f.invokeWith (call ctx fuel : Invoke σ P) [.cursor c i]).Holds s (fun x _ => x.MovesOn c)
      (Excused σ ctx (.raw f)) := by
  have delegated (n : Nat) (hn : n ≤ fuel) (j : Identity) (t : σ) :
      (q.run ctx n (.cursor c j) : Run σ P _).Holds t (fun x _ => x.MovesOn c)
        (Excused σ ctx (.raw f)) :=
    (h n hn c j t hc).mono (fun _ _ _ hx => hx) fun _ he hcomplaint => .delegate hf (he hcomplaint)
  cases hf with
  | parser => exact delegated fuel (Nat.le_refl fuel) i s
  | rule hrule =>
    match fuel with
    | 0 => exact holds_exhaust
    | fuel + 1 =>
      simp only [Value.invokeWith, call, Action.apply, hrule]
      exact (delegated fuel (Nat.le_succ fuel) i s).bind fun x t _ hx => holds_own (hx.numbered t)
  | host hcall =>
    match fuel with
    | 0 => exact holds_exhaust
    | fuel + 1 =>
      simp only [Value.invokeWith, call, Action.apply, hcall, Conduct.follow, bind_pure]
      refine Holds.bind (Q := fun x _ => x.MovesOn c) (holds_ownAll_cursor.bind ?_)
        fun x t _ hx => holds_own (hx.numbered t)
      rintro _ t _ ⟨j, rfl⟩
      exact delegated fuel (Nat.le_succ fuel) j t

/-- **What a parser does to the stream of an index**: if it matches, it is some tokens further on in
the same stream and still inside, and its parts account for how many; and if it raises a complaint
of a cursor, then one of its own functions raised that, and a function of the host behind it. -/
structure Consumes (leaves : Set (Parser P)) (ctx : Context P) (p : Parser P) (fuel : Nat)
    (c : Cursor (Value P)) (i : Identity) (s : σ) : Prop where
  matched : ∀ v n k s', (p.run ctx fuel (.cursor c i)).Gives s (.success v n k) s' →
    ∃ d j m, n = .cursor d j ∧ c.Onward m d ∧ d.place.inside d.size = true ∧
      ((∀ q ∈ p.body.parts, Composed leaves q) →
        p.body.Account (runs ctx (fuel - 1)) (.cursor c i) s m d v)
  raised : ∀ e, ((p.run ctx fuel (.cursor c i) : Run σ P _).start s).outcome =
    .error (.raised e) → e.IsComplaint → Provokes σ ctx e p.body ∧ e.Hosted

section

variable {leaves : Set (Parser P)}
  (hl : ∀ p ∈ leaves, p.body.Steady σ ctx ∨ Delegating ctx.rules leaves p)

include hl

/-- **A composed parser goes on in its stream**, with any fuel. -/
theorem safe_call (fuel : Nat) {p : Parser P} (hp : Composed leaves p) :
    Safe (runs (σ := σ) ctx fuel) (Excused σ ctx p.body) p := by
  induction fuel using Nat.strongRecOn generalizing p with
  | _ fuel ih =>
    intro c i s hc
    match fuel with
    | 0 => exact holds_exhaust
    | fuel + 1 =>
      refine holds_call_of_body (fun x t hx => hx.numbered t) (fun _ => excused_of_calm) ?_
      obtain ⟨leaf, hleaf, hb⟩ | ⟨hb, hparts⟩ := hp.opened.1
      · rw [hb]
        obtain hsteady | ⟨f, q, hraw, hq, hf⟩ := hl leaf hleaf
        · exact (hsteady fuel c i s hc).mono (fun _ _ _ hx => hx) fun _ => excused_of_calm
        · rw [hraw]
          exact holds_delegates hf fuel (fun n hn => ih n (Nat.lt_succ_of_le hn) hq) hc
      · refine (holds_body hb (fun q hq => ih fuel (Nat.lt_succ_self fuel) (hparts q hq)) hc).mono
          (fun _ _ _ hx => hx.movesOn) fun _ he => he

/-- The parts of a composed parser account for what it consumes, if they are composed as well. -/
theorem holds_accounted {p : Parser P} (hp : Composed leaves p) (fuel : Nat) (hc : c.IsIndexed) :
    (p.run ctx (fuel + 1) (.cursor c i) : Run σ P _).Holds s
      (fun x _ => ∀ v n k, x = .success v n k → ∃ d j m, n = .cursor d j ∧ c.Onward m d ∧
        ((∀ q ∈ p.body.parts, Composed leaves q) →
          p.body.Account (runs ctx fuel) (.cursor c i) s m d v)) (Excused σ ctx p.body) := by
  by_cases h : (∀ f, p.body ≠ .raw f) ∧ ∀ q ∈ p.body.parts, Composed leaves q
  · have body := holds_body (i := i) (s := s) h.1 (fun q hq => safe_call hl fuel (h.2 q hq)) hc
    refine (holds_call_of_body ?_ (fun _ => excused_of_calm) body).mono
      (fun x _ _ hx v n k hv => ?_) fun _ he => he
    · exact fun x t hx => hx.numbered t
    obtain ⟨d, j, m, hn, hm, ha⟩ := hx v n k hv
    exact ⟨d, j, m, hn, hm, fun _ => ha⟩
  · refine (safe_call hl (fuel + 1) hp c i s hc).mono (fun x _ _ hx v n k hv => ?_) fun _ he => he
    obtain ⟨d, j, m, hn, hm⟩ := hx v n k hv
    refine ⟨d, j, m, hn, hm, fun hparts => ?_⟩
    -- without a function of the cursor the parts would not all be composed
    cases hb : p.body with
    | raw f => exact trivial
    | _ => exact absurd ⟨fun f hf => by rw [hb] at hf; contradiction, hparts⟩ h

/-- **Parsers go on in their stream and stay inside, and never make its cursor complain.**  This
holds of whatever is composed of leaves that do so, by any nesting of combinators and through
recursive rules. -/
theorem consumes_within {p : Parser P} (hp : Composed leaves p) (fuel : Nat)
    {c : Cursor (Value P)} (hc : c.IsIndexed) (i : Identity) (s : σ) :
    Consumes leaves ctx p fuel c i s := by
  match fuel with
  | 0 =>
    have exhausted := holds_exhaust (s := s) (Q := fun (_ : Value P) (_ : σ) => False)
      (E := fun _ : Error P => False)
    exact ⟨fun v n k s' h => (exhausted.returned _ s' h).elim,
      fun e he => (exhausted.raised e he).elim⟩
  | fuel + 1 =>
    have h := holds_accounted hl hp fuel hc (i := i) (s := s)
    constructor
    · intro v n k s' hgives
      obtain ⟨d, j, m, hn, hm, ha⟩ := h.returned _ s' hgives v n k rfl
      exact ⟨d, j, m, hn, hm, (hm.isIndexed hc).inside, ha⟩
    · intro e he hcomplaint
      exact ⟨h.raised e he hcomplaint, (hosted_call ctx _ _ _ s).raised e he hcomplaint⟩

end

/-! ## Two tokens at a time

    more ::= two more | ("x" | "y")?

A leaf is a function of the cursor that reads two tokens or none. -/

section

open ParserAlgebra.Parser

abbrev two : Parser Catalogue :=
  raw (.ofAction (.primitive (.onCursor .two))) (.word "two") (some (.ofInt 2))

/-- The recursive rule. -/
abbrev more : Parser Catalogue := rule "more" (.word "more") none

/-- What the rule delegates to. -/
def moreBody : Except (Error Catalogue) (Parser Catalogue) := do
  let row ← sequence [two, more]
  alternative [row, (tokenIn [.ofText "x", .ofText "y"]).optional]

omit [Primitive P] in
theorem movesOn_readTwo (hc : c.IsIndexed) {x : Value P}
    (h : CursorFunction.readTwo (.cursor c i) = .ok x) : x.MovesOn c := by
  obtain ⟨d, hd, h⟩ := exists_ok_of_bind h
  cases hd
  split at h
  · cases h
    exact nofun
  obtain ⟨e, he, h⟩ := exists_ok_of_bind h
  split at h
  · cases h
    exact nofun
  obtain ⟨x, hx, h⟩ := exists_ok_of_bind h
  obtain ⟨y, hy, h⟩ := exists_ok_of_bind h
  obtain ⟨d, hd, h⟩ := exists_ok_of_bind h
  cases h
  rintro v n k ⟨⟩
  have first := Cursor.onward_advance (Error.eq_ok_of_ofCursor he) hc.exists_place
  have second := Cursor.onward_advance (Error.eq_ok_of_ofCursor hd)
    (first.isIndexed hc).exists_place
  exact ⟨d, none, 2, rfl, first.trans second⟩

omit [Primitive P] in
theorem calm_readTwo (hc : c.IsIndexed) :
    Calm (CursorFunction.readTwo (.cursor c i) : Except (Error P) (Value P)) := by
  match c with
  | .indexed _ _ [] _ => exact calm_ok _
  | .indexed _ _ [_] _ => exact calm_ok _
  | .indexed ⟨_, true⟩ _ (_ :: _ :: _) _ => exact calm_ok _
  | .indexed ⟨_, false⟩ _ (_ :: _ :: _) _ =>
    rintro _ ⟨⟩ ⟨fault, hf, hm⟩
    cases hf
    contradiction

theorem steady_two (ctx : Context Catalogue) : two.body.Steady σ ctx := by
  intro fuel c i s hc
  match fuel with
  | 0 => exact holds_exhaust
  | fuel + 1 =>
    have read : (ofExcept (CursorFunction.readTwo (.cursor c i)) : Run σ Catalogue _).Holds s
        (fun x _ => x.MovesOn c) fun e => ¬e.IsComplaint :=
      holds_ofExcept (fun x hx => movesOn_readTwo hc hx) (calm_readTwo hc)
    rw [← Conduct.follow_ofExcept (call ctx fuel)] at read
    exact read.bind fun x t _ hx => holds_own (hx.numbered t)

theorem composed_moreBody {leaves : Set (Parser Catalogue)} (htwo : two ∈ leaves)
    (hmore : more ∈ leaves) {q : Parser Catalogue} (hq : moreBody = .ok q) : Composed leaves q := by
  obtain ⟨row, hrow, hq⟩ := exists_ok_of_bind hq
  have branches : ∀ p ∈ [row, (tokenIn [.ofText "x", .ofText "y"]).optional],
      Composed leaves p := by
    rintro p (_ | ⟨_, _ | ⟨_, ⟨⟩⟩⟩)
    · exact .pair (.leaf htwo fun j ps h => by contradiction)
        (.leaf hmore fun j ps h => by contradiction) hrow
    · exact .optional .tokenIn
  exact .alternative branches hq

/-- A cursor on `zabcdx`, behind the first token. -/
abbrev behindFirst : Cursor (Value Catalogue) :=
  .indexed ⟨some 1, true⟩ [.ofText "z"]
    [.ofText "a", .ofText "b", .ofText "c", .ofText "d", .ofText "x"] false

/-- Pairs of tokens, over and over, and then by the recursive rule. -/
theorem pairs_consume_within : ∃ q, moreBody = .ok q ∧
    let ctx : Context Catalogue := ⟨fun _ => some (.ofParser q), true, .lenient⟩
    let leaves : Set (Parser Catalogue) := {two, more}
    let pairs := sequenced [two.repeat1 gathered, more]
    (∀ p ∈ leaves, p.body.Steady Nat ctx ∨ Delegating ctx.rules leaves p) ∧
    Composed leaves pairs ∧ behindFirst.IsIndexed ∧
    ∀ fuel, Consumes leaves ctx pairs fuel behindFirst (some 2) (1024 : Nat) := by
  refine ⟨_, rfl, ?_⟩
  intro ctx leaves pairs
  have htwo : two ∈ leaves := .inl rfl
  have hmore : more ∈ leaves := .inr rfl
  have safe : ∀ p ∈ leaves, p.body.Steady Nat ctx ∨ Delegating ctx.rules leaves p := by
    rintro p (rfl | rfl)
    · exact .inl (steady_two ctx)
    · exact .inr ⟨_, _, rfl, composed_moreBody htwo hmore rfl, .rule rfl⟩
  have composed : Composed leaves pairs :=
    .pair (.repeat1 (.leaf htwo fun j ps h => by contradiction))
      (.leaf hmore fun j ps h => by contradiction) rfl
  have indexed : behindFirst.IsIndexed := trivial
  exact ⟨safe, composed, indexed, fun fuel => consumes_within safe composed fuel indexed _ _⟩

end

end ParserAlgebra
