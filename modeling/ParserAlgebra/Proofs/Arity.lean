import ParserAlgebra.Catalogue.Readers
import ParserAlgebra.Parser.Characters
import ParserAlgebra.Proofs.Arity.Results

/-!
# Proofs/Arity — a declared arity is exact

    leaves are shape-sound   ⟹   so is every parser that the combinators admit over them

A parser is *shape-sound* if its matches are well-shaped and have as many components as declared.
Each combinator keeps this, with one thing more to carry along: an operator puts the operands that a
parser remembers into a new combination, so these have to be shape-sound as well (`Sturdy`).
-/

namespace ParserAlgebra

variable {σ P : Type} [Supply σ] [Primitive P] {ctx : Context P}

open Value

/-- **Shape-sound**: what the parser's body makes of a cursor fits its arity, with any fuel.  The
name that it goes by only shows in the log. -/
def ShapeSound (σ : Type) [Supply σ] (ctx : Context P) (p : Parser P) : Prop :=
  ∀ fuel c, c.OnFlat →
    (p.body.apply (call ctx fuel) fuel c : Run σ P _).Ensures (MatchFits p.declared)

/-- **What a call with a list returns is no composite**, with any fuel. -/
def Collecting (σ : Type) [Supply σ] (ctx : Context P) (f : Value P) : Prop :=
  ∀ fuel xs i,
    (f.invokeWith (call ctx fuel) [.list xs i] : Run σ P _).Ensures fun w => w.isComposite = false

/-- **Parsers that are put together from shape-sound ones.**  A mapper is honest, and a collection
returns no composite; that a leaf remembers operands is no harm if these are shape-sound too. -/
inductive Grown (σ : Type) [Supply σ] (ctx : Context P) : Parser P → Prop
  | leaf {p} (h : ShapeSound σ ctx p)
      (hc : ∀ j ps, p.chain = some (j, ps) → ∀ q ∈ ps, ShapeSound σ ctx q) : Grown σ ctx p
  | succeed : Grown σ ctx .succeed
  | fail : Grown σ ctx .fail
  | one : Grown σ ctx .one
  | endOfInput : Grown σ ctx .endOfInput
  | optional {p} (h : Grown σ ctx p) : Grown σ ctx p.optional
  | sequence {ps q} (h : ∀ p ∈ ps, Grown σ ctx p) (hq : Parser.sequence ps = .ok q) : Grown σ ctx q
  | alternative {ps q} (h : ∀ p ∈ ps, Grown σ ctx p) (hq : Parser.alternative ps = .ok q) :
    Grown σ ctx q
  | repeat0 {p f i} (h : Grown σ ctx p) (hf : Collecting σ ctx (.callable f i)) :
    Grown σ ctx (p.repeat0 f)
  | repeat1 {p f i} (h : Grown σ ctx p) (hf : Collecting σ ctx (.callable f i)) :
    Grown σ ctx (p.repeat1 f)
  | map {p q m} (h : Grown σ ctx p) (hm : ∀ fuel, m.Honest (call ctx fuel : Invoke σ P))
      (hq : p.map m = .ok q) : Grown σ ctx q
  | satisfy {f} : Grown σ ctx (.satisfy f)
  | token {x} : Grown σ ctx (.token x)
  | tokenIn {xs} : Grown σ ctx (.tokenIn xs)
  | skip {p q} (h : Grown σ ctx p) (hq : p.skip = .ok q) : Grown σ ctx q
  | separated {p s f q} (h : Grown σ ctx p) (hs : Grown σ ctx s) (hf : Collecting σ ctx f)
      (hq : p.separated s f = .ok q) : Grown σ ctx q
  | lexeme {p q} (h : Grown σ ctx p) (hq : p.lexeme = .ok q) : Grown σ ctx q
  | both {p q r} (h : Grown σ ctx p) (k : Grown σ ctx q) (hr : p.both q = .ok r) : Grown σ ctx r
  | either {p q r} (h : Grown σ ctx p) (k : Grown σ ctx q) (hr : p.either q = .ok r) : Grown σ ctx r
  | named {p name} (h : Grown σ ctx p) : Grown σ ctx (p.named name)

/-! ## Calls of shape-sound parsers -/

omit [Supply σ] [Primitive P] in
/-- The log is written around the body and hands its result on. -/
theorem ensures_logged {handler : Handler} {p : Parser P} {c : Value P}
    {body : Run σ P (Value P)} {Q : Value P → Prop} (h : body.Ensures Q) :
    (p.logged handler c body).Ensures Q := by
  unfold Parser.logged
  refine (Run.ensures_true _).bind fun _ _ => h.bind fun r hr => ?_
  split
  · exact (Run.ensures_true _).bind fun _ _ => (Run.ensures_true _).bind fun _ _ =>
      Run.ensures_pure hr
  · exact (Run.ensures_true _).bind fun _ _ => Run.ensures_pure hr

/-- **What a call of a shape-sound parser returns fits its arity.** -/
theorem ShapeSound.fitsUnder {p : Parser P} (h : ShapeSound σ ctx p) (fuel : Nat) :
    FitsUnder (σ := σ) (fun p c => call ctx fuel (.parser p) [c]) p := by
  intro c hc
  cases fuel with
  | zero => exact Run.ensures_exhaust
  | succ fuel =>
    have hbody :
        (p.apply (call ctx fuel) fuel ctx c : Run σ P _).Ensures (MatchFits p.declared) := by
      unfold Parser.apply
      split
      · exact ensures_logged (h fuel c hc)
      · exact h fuel c hc
    exact hbody.bind fun r hr => Run.ensures_own fun s => hr.numbered s

/-! ## One combinator at a time -/

theorem shapeSound_optional {p : Parser P} (h : ShapeSound σ ctx p) :
    ShapeSound σ ctx p.optional := by
  intro fuel c hc
  refine Ensures.readMatch (h.fitsUnder fuel c hc) ?_ fun v n _ hn => ?_
  · exact Run.ensures_pure (matchFits_success (fits_one rfl) hc)
  · exact Run.ensures_pure (matchFits_success (fits_one rfl) hn)

theorem shapeSound_sequenced {ps : List (Parser P)} (h : ∀ p ∈ ps, ShapeSound σ ctx p) :
    ShapeSound σ ctx (.sequenced ps) := by
  intro fuel c hc
  refine (ensures_runAll (fun p hp => (h p hp).fitsUnder fuel) hc).bind fun m hm => ?_
  match m with
  | none => exact Run.ensures_pure matchFits_failure
  | some (vs, d) =>
    obtain ⟨hvs, hd⟩ := hm vs d rfl
    exact Run.ensures_pure (matchFits_success (fits_concat hvs) hd)

theorem shapeSound_alternated {ps : List (Parser P)} (h : ∀ p ∈ ps, ShapeSound σ ctx p)
    (hh : Value.allHashable (Parser.knownArities ps) = true)
    (ha : Parser.agree (Parser.knownArities ps) = true) : ShapeSound σ ctx (.alternated ps) :=
  fun fuel _ hc => ensures_runFirst (fun p hp => (h p hp).fitsUnder fuel)
    (fun _ hp _ hv => fits_shared hh ha hp hv) hc

omit [Primitive P] in
theorem ensures_ownList (vs : List (Value P)) :
    (Run.own (.list vs none) : Run σ P _).Ensures fun l => ∃ xs i, l = .list xs i := by
  refine Run.ensures_own fun s => ?_
  rw [Value.numbered]
  exact ⟨_, _, rfl⟩

theorem shapeSound_repeat0 {p : Parser P} {f : Callable P} {i : Identity}
    (h : ShapeSound σ ctx p) (hf : Collecting σ ctx (.callable f i)) :
    ShapeSound σ ctx (p.repeat0 f) := by
  intro fuel c hc
  refine (ensures_runMany (h.fitsUnder fuel) fuel hc).bind fun x hx => ?_
  refine (ensures_ownList x.1).bind fun l hl => ?_
  obtain ⟨xs, j, rfl⟩ := hl
  refine (hf fuel xs j).bind fun w hw => ?_
  exact Run.ensures_pure (matchFits_success (fits_one hw) hx)

theorem shapeSound_repeat1 {p : Parser P} {f : Callable P} {i : Identity}
    (h : ShapeSound σ ctx p) (hf : Collecting σ ctx (.callable f i)) :
    ShapeSound σ ctx (p.repeat1 f) := by
  intro fuel c hc
  refine Ensures.readMatch (h.fitsUnder fuel c hc) (Run.ensures_pure matchFits_failure)
    fun v n _ hn => ?_
  refine (ensures_runMany (h.fitsUnder fuel) fuel hn).bind fun x hx => ?_
  refine (ensures_ownList (v :: x.1)).bind fun l hl => ?_
  obtain ⟨xs, j, rfl⟩ := hl
  refine (hf fuel xs j).bind fun w hw => ?_
  exact Run.ensures_pure (matchFits_success (fits_one hw) hx)

theorem shapeSound_mapped {p : Parser P} {m : Mapper P} (h : ShapeSound σ ctx p)
    (hm : ∀ fuel, m.Honest (call ctx fuel : Invoke σ P)) : ShapeSound σ ctx (p.mapped m) := by
  intro fuel c hc
  refine (h.fitsUnder fuel c hc).bind fun r hr => ?_
  split
  · exact ensures_runMapper (hm fuel) hr
  · exact Run.ensures_pure matchFits_failure

/-- A name makes no difference to what a parser produces. -/
theorem shapeSound_named {p : Parser P} (h : ShapeSound σ ctx p) (name : Value P) :
    ShapeSound σ ctx (p.named name) := fun fuel c hc => h fuel c hc

theorem shapeSound_satisfy (f : Callable P) : ShapeSound σ ctx (.satisfy f) := by
  have h : ShapeSound σ ctx (Parser.one.mapped (.filter f)) :=
    shapeSound_mapped (fun fuel c hc => ensures_takeToken hc) fun _ => trivial
  exact shapeSound_named h _

theorem shapeSound_skipped {p : Parser P} (h : ShapeSound σ ctx p) :
    ShapeSound σ ctx p.skipped := by
  have hm : ∀ fuel, (Mapper.discard : Mapper P).Honest (call ctx fuel : Invoke σ P) := by
    intro fuel xs _
    cases fuel with
    | zero => exact Run.ensures_exhaust
    | succ fuel =>
      refine (Run.ensures_pure (Q := fun w => w = .composite [] none) rfl).bind fun w hw => ?_
      subst hw
      refine Run.ensures_own fun s => ?_
      have hw := fits_zero.numbered s (P := P)
      rw [hw.wellShaped.unwrap_eq]
      exact hw
  exact shapeSound_named (shapeSound_mapped h hm) _

/-! ## Lists of items -/

/-- Listing returns a list. -/
theorem collecting_gathered (i : Identity) :
    Collecting σ ctx (.callable (Parser.gathered : Callable P) i) := by
  intro fuel xs j
  cases fuel with
  | zero => exact Run.ensures_exhaust
  | succ fuel =>
    refine (Run.ensures_pure (Q := fun w => w = .list xs none) rfl).bind fun w hw => ?_
    subst hw
    exact Run.ensures_own fun s => by rw [isComposite_numbered]; rfl

/-- Items that are listed with a leading one go through the collection, so one value comes out. -/
theorem honest_collectSeparated {f : Value P} (hf : Collecting σ ctx f) (fuel : Nat) :
    (Mapper.total (.action (.collectSeparated f)) (some (.ofInt 1))).Honest
      (call ctx fuel : Invoke σ P) := by
  intro args _
  have fits : ∀ w : Value P, w.isComposite = false → w.unwrap.Fits (some (.ofInt 1)) := by
    intro w hw
    rw [unwrap_of_isComposite hw]
    exact fits_one hw
  cases fuel with
  | zero => exact Run.ensures_exhaust
  | succ fuel =>
    have hcollect : (Action.collectWith (call ctx fuel) f args : Run σ P _).Ensures fun w =>
        w.isComposite = false := by
      unfold Action.collectWith
      split
      · exact Run.ensures_raise _
      · refine (Run.ensures_true _).bind fun xs _ => (ensures_ownList _).bind fun l hl => ?_
        obtain ⟨ys, j, rfl⟩ := hl
        exact hf fuel ys j
    refine hcollect.bind fun w hw => Run.ensures_own fun s => fits _ ?_
    rw [isComposite_numbered, hw]

/-! ## Remembered operands -/

/-- **Shape-sound, and so are the operands that the parser remembers.** -/
structure Sturdy (σ : Type) [Supply σ] (ctx : Context P) (p : Parser P) : Prop where
  sound : ShapeSound σ ctx p
  chain : ∀ j ps, p.chain = some (j, ps) → ∀ q ∈ ps, ShapeSound σ ctx q

theorem ShapeSound.sturdy {p : Parser P} (h : ShapeSound σ ctx p) (hc : p.chain = none) :
    Sturdy σ ctx p where
  sound := h
  chain j ps hps := by
    rw [hc] at hps
    contradiction

theorem Sturdy.operands {p : Parser P} (h : Sturdy σ ctx p) (j : Junction) :
    ∀ q ∈ p.operands j, ShapeSound σ ctx q := by
  intro q hq
  unfold Parser.operands at hq
  split at hq
  · rename_i k ps hps
    split at hq
    · exact h.chain k ps hps q hq
    · rw [List.mem_singleton.1 hq]
      exact h.sound
  · rw [List.mem_singleton.1 hq]
    exact h.sound

theorem sturdy_sequence {ps : List (Parser P)} (h : ∀ p ∈ ps, Sturdy σ ctx p) {q : Parser P}
    (hq : Parser.sequence ps = .ok q) : Sturdy σ ctx q := by
  obtain rfl | ⟨_, rfl⟩ := Parser.sequence_eq_ok hq
  · exact h _ (List.mem_singleton.2 rfl)
  · exact (shapeSound_sequenced fun p hp => (h p hp).sound).sturdy rfl

theorem sturdy_alternative {ps : List (Parser P)} (h : ∀ p ∈ ps, Sturdy σ ctx p) {q : Parser P}
    (hq : Parser.alternative ps = .ok q) : Sturdy σ ctx q := by
  obtain rfl | ⟨⟨hh, ha⟩, rfl⟩ := Parser.alternative_eq_ok hq
  · exact h _ (List.mem_singleton.2 rfl)
  · exact (shapeSound_alternated (fun p hp => (h p hp).sound) hh ha).sturdy rfl

/-- **An operator keeps what it needs.**  The new parser remembers the operands of both sides. -/
theorem sturdy_chained {p q r : Parser P} {j : Junction} (hp : Sturdy σ ctx p)
    (hq : Sturdy σ ctx q) (hr : Parser.chained j p q = .ok r) : Sturdy σ ctx r := by
  have parts : ∀ o ∈ p.operands j ++ q.operands j, ShapeSound σ ctx o := by
    intro o ho
    obtain ho | ho := List.mem_append.1 ho
    · exact hp.operands j o ho
    · exact hq.operands j o ho
  obtain ⟨t, ht, hr⟩ := exists_ok_of_bind hr
  cases hr
  refine ⟨?_, fun _ _ h => by cases h; exact parts⟩
  have joined : ShapeSound σ ctx t := by
    cases j with
    | sequence =>
      obtain heq | ⟨_, rfl⟩ := Parser.sequence_eq_ok ht
      · exact parts t (heq ▸ List.mem_singleton.2 rfl)
      · exact shapeSound_sequenced parts
    | alternative =>
      obtain heq | ⟨⟨hh, ha⟩, rfl⟩ := Parser.alternative_eq_ok ht
      · exact parts t (heq ▸ List.mem_singleton.2 rfl)
      · exact shapeSound_alternated parts hh ha
  exact joined

/-! ## Combinations of combinators -/

theorem sturdy_skip {p q : Parser P} (h : Sturdy σ ctx p) (hq : p.skip = .ok q) :
    Sturdy σ ctx q := by
  obtain ⟨_, rfl⟩ := Parser.skip_eq_ok hq
  exact (shapeSound_skipped h.sound).sturdy rfl

theorem sturdy_pair {p q r : Parser P} (hp : Sturdy σ ctx p) (hq : Sturdy σ ctx q)
    (hr : Parser.sequence [p, q] = .ok r) : Sturdy σ ctx r := by
  refine sturdy_sequence (fun o ho => ?_) hr
  obtain rfl | ho := List.mem_cons.1 ho
  · exact hp
  · rw [List.mem_singleton.1 ho]
    exact hq

theorem sturdy_separated {p s q : Parser P} {f : Value P} (hp : Sturdy σ ctx p)
    (hs : Sturdy σ ctx s) (hf : Collecting σ ctx f) (hq : p.separated s f = .ok q) :
    Sturdy σ ctx q := by
  obtain ⟨s', hs', hq⟩ := exists_ok_of_bind hq
  obtain ⟨item, hitem, hq⟩ := exists_ok_of_bind hq
  obtain ⟨row, hrow, hq⟩ := exists_ok_of_bind hq
  obtain ⟨r, hr, hq⟩ := exists_ok_of_bind hq
  cases hq
  obtain ⟨_, rfl⟩ := Parser.map_eq_ok hr
  have tail : Sturdy σ ctx (item.repeat0 Parser.gathered) :=
    (shapeSound_repeat0 (sturdy_pair (sturdy_skip hs hs') hp hitem).sound
      (collecting_gathered none)).sturdy rfl
  have whole := shapeSound_mapped (sturdy_pair hp tail hrow).sound (honest_collectSeparated hf)
  exact (shapeSound_named whole _).sturdy rfl

theorem sturdy_lexeme {p q : Parser P} (h : Sturdy σ ctx p) (hq : p.lexeme = .ok q) :
    Sturdy σ ctx q := by
  have whitespace : ShapeSound σ ctx .whitespace := shapeSound_named (shapeSound_satisfy _) _
  have many := shapeSound_repeat0 whitespace (collecting_gathered none)
  have spaces : ShapeSound σ ctx .spaces := shapeSound_named (shapeSound_skipped many) _
  exact sturdy_pair h (spaces.sturdy rfl) hq

/-! ## All combinators -/

/-- **What is grown from shape-sound leaves is shape-sound**, along with what it remembers. -/
theorem Grown.sturdy {p : Parser P} (h : Grown σ ctx p) : Sturdy σ ctx p := by
  induction h with
  | leaf h hc => exact ⟨h, hc⟩
  | succeed =>
    have h : ShapeSound σ ctx .succeed := fun fuel c hc =>
      Run.ensures_pure (matchFits_success fits_zero hc)
    exact h.sturdy rfl
  | fail =>
    have h : ShapeSound σ ctx .fail := fun fuel c hc => Run.ensures_pure matchFits_failure
    exact h.sturdy rfl
  | one =>
    have h : ShapeSound σ ctx .one := fun fuel c hc => ensures_takeToken hc
    exact h.sturdy rfl
  | endOfInput =>
    have h : ShapeSound σ ctx .endOfInput := fun fuel c hc => ensures_takeEnd hc
    exact h.sturdy rfl
  | optional _ ih => exact (shapeSound_optional ih.sound).sturdy rfl
  | sequence _ hq ih => exact sturdy_sequence ih hq
  | alternative _ hq ih => exact sturdy_alternative ih hq
  | repeat0 _ hf ih => exact (shapeSound_repeat0 ih.sound hf).sturdy rfl
  | repeat1 _ hf ih => exact (shapeSound_repeat1 ih.sound hf).sturdy rfl
  | map _ hm hq ih =>
    obtain ⟨_, rfl⟩ := Parser.map_eq_ok hq
    exact (shapeSound_mapped ih.sound hm).sturdy rfl
  | satisfy => exact (shapeSound_satisfy _).sturdy rfl
  | token => exact (shapeSound_named (shapeSound_satisfy _) _).sturdy rfl
  | tokenIn => exact (shapeSound_named (shapeSound_satisfy _) _).sturdy rfl
  | skip _ hq ih =>
    obtain ⟨_, rfl⟩ := Parser.skip_eq_ok hq
    exact (shapeSound_skipped ih.sound).sturdy rfl
  | separated _ _ hf hq ih ih' => exact sturdy_separated ih ih' hf hq
  | lexeme _ hq ih => exact sturdy_lexeme ih hq
  | both _ _ hr ih ih' => exact sturdy_chained ih ih' hr
  | either _ _ hr ih ih' => exact sturdy_chained ih ih' hr
  | named _ ih => exact (shapeSound_named ih.sound _).sturdy rfl

omit [Primitive P] in
/-- What fits an arity that is a whole number has that many components. -/
theorem Value.Fits.length_eq {p : Parser P} {v : Value P} (h : v.Fits p.declared) {n : Int}
    (hn : p.arity = some n) : (v.components.length : Int) = n := by
  obtain ⟨m, hm, hw⟩ := Option.bind_eq_some_iff.1 hn
  obtain ⟨d, hd, hm⟩ := Option.bind_eq_some_iff.1 hm
  obtain ⟨k, hk, hs⟩ := isNumber_iff.1 (h.counts d hd)
  obtain rfl : k = m := by simpa [hm] using hk.symm
  rw [Number.same, Number.toDecimal_of_whole? hw] at hs
  simpa using (Number.same_int _ n).symm.trans hs

/-- **Arities are exact.**  A parser that is grown from shape-sound leaves is shape-sound.  Its
matches have as many components as declared, none of them a composite, so a mapper that is admitted
on it is called with that many, and they are enough: a selection always finds its components. -/
theorem grown_shapeSound {p : Parser P} (h : Grown σ ctx p) :
    ShapeSound σ ctx p ∧ ∀ fuel c, c.OnFlat →
      (call ctx fuel (.parser p) [c] : Run σ P _).Ensures fun result =>
        ∀ v n i, result = .success v n i → v.Fits p.declared ∧
          (∀ k, p.arity = some k → (v.components.length : Int) = k) ∧
          ∀ m q, p.map m = .ok q → p.declared.isSome →
            Flat v.components ∧ m.requires ≤ v.components.length ∧
            ∀ indices, m = .select indices →
              ∃ w, Mapper.choose indices v.components = .ok w := by
  refine ⟨h.sturdy.sound, fun fuel c hc => ?_⟩
  refine (h.sturdy.sound.fitsUnder fuel c hc).mono fun r hr v n i hv => ?_
  obtain ⟨hfits, _⟩ := hr v n i hv
  refine ⟨hfits, fun k hk => hfits.length_eq hk, fun m q hq hd => ?_⟩
  obtain ⟨d, hd⟩ := Option.isSome_iff_exists.1 hd
  have hle : m.requires ≤ v.components.length := requires_le (Parser.map_eq_ok hq).1 hd hfits
  refine ⟨hfits.wellShaped.flat, hle, ?_⟩
  rintro indices rfl
  have inside : ∀ i ∈ indices, i < v.components.length := fun i hi =>
    Nat.lt_of_lt_of_le (Mapper.lt_requires_select hi) hle
  obtain ⟨ys, hys⟩ := Mapper.exists_mapM inside
  exact ⟨tupleOf ys, by rw [Mapper.choose_eq, hys]⟩

/-- One token between brackets, of which it keeps the token alone. -/
def bracketed : Parser Catalogue :=
  (Parser.sequenced [.token (.ofText "("), .one, .token (.ofText ")")]).mapped (.select [1])

/-- The token between brackets is exactly one component. -/
theorem bracketed_shapeSound :
    Grown Nat (⟨fun _ => none, true, .strict⟩ : Context Catalogue) bracketed ∧
    bracketed.arity = some 1 ∧
    ShapeSound Nat (⟨fun _ => none, true, .strict⟩ : Context Catalogue) bracketed := by
  have parts : ∀ p ∈ [Parser.token (.ofText "("), .one, .token (.ofText ")")],
      Grown Nat (⟨fun _ => none, true, .strict⟩ : Context Catalogue) p := by
    rintro p (_ | ⟨_, _ | ⟨_, _ | ⟨_, ⟨⟩⟩⟩⟩)
    · exact .token
    · exact .one
    · exact .token
  have grown : Grown Nat (⟨fun _ => none, true, .strict⟩ : Context Catalogue) bracketed :=
    .map (m := .select [1]) (.sequence parts rfl) (fun _ => trivial) rfl
  exact ⟨grown, rfl, (grown_shapeSound grown).1⟩

end ParserAlgebra
