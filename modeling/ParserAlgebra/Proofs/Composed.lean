import Mathlib.Data.Set.Defs
import ParserAlgebra.Parser.Characters
import ParserAlgebra.Proofs.Derivation

/-!
# Proofs/Composed — parsers that the combinators put together

    leaves ──sequence, alternative, optional, …──▸ composed parsers

What holds of every parser that is put together from some leaves is shown by looking at one body at
a time: its parts are composed again (`Composed.cases`).  An operator is the one combinator that
looks inside its operands, for the operands that they remember, so these have to be composed as well
(`Composed.chain`).

The general parsers are no combinators of their own.  They are written with the others, so they are
composed of whatever they are made of.
-/

namespace ParserAlgebra

variable {P : Type}

/-- The parsers that a body is put together from. -/
def Body.parts : Body P → List (Parser P)
  | succeed | fail | one | endOfInput | raw _ => []
  | optional p | repeat0 p _ | repeat1 p _ | map p _ => [p]
  | sequence ps | alternative ps => ps

/-- **Parsers that are put together from leaves**, with any mappers and collections.  A leaf may
remember operands if these are composed too. -/
inductive Composed [Labelled P] (leaves : Set (Parser P)) : Parser P → Prop
  | leaf {p} (h : p ∈ leaves) (hc : ∀ j ps, p.chain = some (j, ps) → ∀ q ∈ ps, Composed leaves q) :
    Composed leaves p
  | succeed : Composed leaves .succeed
  | fail : Composed leaves .fail
  | one : Composed leaves .one
  | endOfInput : Composed leaves .endOfInput
  | optional {p} (h : Composed leaves p) : Composed leaves p.optional
  | sequence {ps q} (h : ∀ p ∈ ps, Composed leaves p) (hq : Parser.sequence ps = .ok q) :
    Composed leaves q
  | alternative {ps q} (h : ∀ p ∈ ps, Composed leaves p) (hq : Parser.alternative ps = .ok q) :
    Composed leaves q
  | repeat0 {p f} (h : Composed leaves p) : Composed leaves (p.repeat0 f)
  | repeat1 {p f} (h : Composed leaves p) : Composed leaves (p.repeat1 f)
  | map {p q m} (h : Composed leaves p) (hq : p.map m = .ok q) : Composed leaves q
  | chained {p q r j} (h : Composed leaves p) (k : Composed leaves q)
      (hr : Parser.chained j p q = .ok r) : Composed leaves r
  | named {p name} (h : Composed leaves p) : Composed leaves (p.named name)

/-- **A recursive rule**: a function that only hands its cursor to a parser composed of the
leaves. -/
def Delegating [Primitive P] (rules : String → Option (Value P)) (leaves : Set (Parser P))
    (p : Parser P) : Prop :=
  ∃ f q, p.body = .raw f ∧ Composed leaves q ∧ Delegates rules f q

/-- **A body that was looked into**: it is that of a leaf, or no function, and its parts are
composed. -/
def Body.Opened [Labelled P] (leaves : Set (Parser P)) (b : Body P) : Prop :=
  (∃ p ∈ leaves, b = p.body) ∨ (∀ f, b ≠ .raw f) ∧ ∀ q ∈ b.parts, Composed leaves q

namespace Composed

variable [Labelled P] {leaves : Set (Parser P)}

/-! ## Looking inside -/

/-- Composed, and looked into. -/
structure Opened (leaves : Set (Parser P)) (p : Parser P) : Prop where
  composed : Composed leaves p
  body : p.body.Opened leaves

/-- What a parser contributes to a chain is looked into, if it is itself and what it remembers. -/
theorem opened_operands {p : Parser P} (h : Opened leaves p)
    (hc : ∀ j ps, p.chain = some (j, ps) → ∀ q ∈ ps, Opened leaves q) (j : Junction) :
    ∀ q ∈ p.operands j, Opened leaves q := by
  intro q hq
  unfold Parser.operands at hq
  split at hq
  · rename_i k ps hps
    split at hq
    · exact hc k ps hps q hq
    · exact List.mem_singleton.1 hq ▸ h
  · exact List.mem_singleton.1 hq ▸ h

/-- What many parsers are joined to is one of them, or has them as its parts. -/
theorem opened_join {j : Junction} {ps : List (Parser P)} {q : Parser P}
    (hq : Parser.join j ps = .ok q) (h : ∀ p ∈ ps, Opened leaves p) :
    q ∈ ps ∨ q.body.Opened leaves ∧ q.chain = none := by
  have parts : ∀ p ∈ ps, Composed leaves p := fun p hp => (h p hp).composed
  cases j with
  | sequence =>
    obtain rfl | ⟨_, rfl⟩ := Parser.sequence_eq_ok hq
    · exact .inl (List.mem_singleton.2 rfl)
    · exact .inr ⟨.inr ⟨fun _ => nofun, parts⟩, rfl⟩
  | alternative =>
    obtain rfl | ⟨_, rfl⟩ := Parser.alternative_eq_ok hq
    · exact .inl (List.mem_singleton.2 rfl)
    · exact .inr ⟨.inr ⟨fun _ => nofun, parts⟩, rfl⟩

/-- **A composed parser is looked into, and so is what it remembers.** -/
theorem opened {p : Parser P} (h : Composed leaves p) :
    p.body.Opened leaves ∧ ∀ j ps, p.chain = some (j, ps) → ∀ q ∈ ps, Opened leaves q := by
  have one_part {b : Body P} {q : Parser P} (hb : ∀ f, b ≠ .raw f) (hp : b.parts = [q])
      (hq : Composed leaves q) : b.Opened leaves :=
    .inr ⟨hb, fun r hr => List.mem_singleton.1 (hp ▸ hr) ▸ hq⟩
  have joined {j : Junction} {ps : List (Parser P)} {q : Parser P}
      (hq : Parser.join j ps = .ok q) (h : ∀ p ∈ ps, Composed leaves p)
      (ih : ∀ p ∈ ps, p.body.Opened leaves ∧
        ∀ j ps, p.chain = some (j, ps) → ∀ q ∈ ps, Opened leaves q) :
      q.body.Opened leaves ∧ ∀ j ps, q.chain = some (j, ps) → ∀ q ∈ ps, Opened leaves q := by
    obtain hmem | ⟨hb, hc⟩ := opened_join hq fun p hp => ⟨h p hp, (ih p hp).1⟩
    · exact ih q hmem
    · exact ⟨hb, fun j ps hps => by rw [hc] at hps; contradiction⟩
  induction h with
  | leaf h hc ih =>
    exact ⟨.inl ⟨_, h, rfl⟩, fun j ps hps q hq => ⟨hc j ps hps q hq, (ih j ps hps q hq).1⟩⟩
  | succeed => exact ⟨.inr ⟨fun _ => nofun, nofun⟩, nofun⟩
  | fail => exact ⟨.inr ⟨fun _ => nofun, nofun⟩, nofun⟩
  | one => exact ⟨.inr ⟨fun _ => nofun, nofun⟩, nofun⟩
  | endOfInput => exact ⟨.inr ⟨fun _ => nofun, nofun⟩, nofun⟩
  | optional h => exact ⟨one_part (fun _ => nofun) rfl h, nofun⟩
  | sequence h hq ih => exact joined (j := .sequence) hq h ih
  | alternative h hq ih => exact joined (j := .alternative) hq h ih
  | repeat0 h => exact ⟨one_part (fun _ => nofun) rfl h, nofun⟩
  | repeat1 h => exact ⟨one_part (fun _ => nofun) rfl h, nofun⟩
  | map h hq =>
    obtain ⟨_, rfl⟩ := Parser.map_eq_ok hq
    exact ⟨one_part (fun _ => nofun) rfl h, nofun⟩
  | @chained p q r j hp hq hr ihp ihq =>
    have operands : ∀ o ∈ p.operands j ++ q.operands j, Opened leaves o := by
      intro o ho
      obtain ho | ho := List.mem_append.1 ho
      · exact opened_operands ⟨hp, ihp.1⟩ ihp.2 j o ho
      · exact opened_operands ⟨hq, ihq.1⟩ ihq.2 j o ho
    obtain ⟨t, ht, hr⟩ := exists_ok_of_bind hr
    cases hr
    refine ⟨?_, fun _ _ h => by cases h; exact operands⟩
    obtain hmem | ⟨hb, _⟩ := opened_join ht operands
    · exact (operands t hmem).body
    · exact hb
  | named _ ih => exact ⟨ih.1, nofun⟩

/-! ## The general parsers -/

theorem satisfy {f : Callable P} : Composed leaves (.satisfy f) :=
  .named (.map (m := .filter f) .one rfl)

theorem token {x : Value P} : Composed leaves (.token x) := .named satisfy

theorem tokenIn {xs : List (Value P)} : Composed leaves (.tokenIn xs) := .named satisfy

theorem skip {p q : Parser P} (h : Composed leaves p) (hq : p.skip = .ok q) :
    Composed leaves q := by
  obtain ⟨r, hr, hq⟩ := exists_ok_of_bind hq
  obtain ⟨s, hs, hq⟩ := exists_ok_of_bind hq
  obtain ⟨_, rfl⟩ := Parser.map_eq_ok hr
  cases hq
  rw [Parser.titled_eq_ok hs]
  exact .named (.map h hr)

theorem pair {p q r : Parser P} (h : Composed leaves p) (k : Composed leaves q)
    (hr : Parser.sequence [p, q] = .ok r) : Composed leaves r := by
  refine .sequence (fun o ho => ?_) hr
  obtain rfl | ho := List.mem_cons.1 ho
  · exact h
  · exact List.mem_singleton.1 ho ▸ k

theorem separated {p s q : Parser P} {f : Value P} (h : Composed leaves p) (k : Composed leaves s)
    (hq : p.separated s f = .ok q) : Composed leaves q := by
  obtain ⟨t, ht, hq⟩ := exists_ok_of_bind hq
  obtain ⟨item, hitem, hq⟩ := exists_ok_of_bind hq
  obtain ⟨row, hrow, hq⟩ := exists_ok_of_bind hq
  obtain ⟨r, hr, hq⟩ := exists_ok_of_bind hq
  cases hq
  exact .named (.map (pair h (.repeat0 (pair (skip k ht) h hitem)) hrow) hr)

theorem chainLeft {p o q : Parser P} (h : Composed leaves p) (k : Composed leaves o)
    (hq : p.chainLeft o = .ok q) : Composed leaves q := by
  obtain ⟨step, hstep, hq⟩ := exists_ok_of_bind hq
  obtain ⟨row, hrow, hq⟩ := exists_ok_of_bind hq
  exact .map (pair h (.repeat0 (pair k h hstep)) hrow) hq

theorem chainRight {p o q : Parser P} (h : Composed leaves p) (k : Composed leaves o)
    (hq : p.chainRight o = .ok q) : Composed leaves q := by
  obtain ⟨step, hstep, hq⟩ := exists_ok_of_bind hq
  obtain ⟨row, hrow, hq⟩ := exists_ok_of_bind hq
  exact .map (pair (.repeat0 (pair h k hstep)) h hrow) hq

theorem spaces : Composed leaves (.spaces : Parser P) :=
  .named (skip (.repeat0 (.named satisfy)) rfl)

theorem lexeme {p q : Parser P} (h : Composed leaves p) (hq : p.lexeme = .ok q) :
    Composed leaves q := pair h spaces hq

theorem integer : Composed leaves (.integer : Parser P) := by
  have parts : Composed leaves (.signedDigits : Parser P) :=
    pair (.optional token) (.repeat1 (.named satisfy)) rfl
  exact .named (.map (m := .total (.action .toInteger) (some (.ofInt 1))) parts rfl)

theorem identifier : Composed leaves (.identifier : Parser P) := by
  have start : Composed leaves (.wordStart : Parser P) := by
    have branches : ∀ p ∈ [Parser.letter, .token (.ofText "_")], Composed leaves p := by
      rintro p (_ | ⟨_, _ | ⟨_, ⟨⟩⟩⟩)
      · exact .named satisfy
      · exact token
    exact .alternative branches rfl
  have parts : Composed leaves (.wordParts : Parser P) := pair start (.repeat0 satisfy) rfl
  exact .named (.map (m := .total (.action .joinWord) (some (.ofInt 1))) parts rfl)

end Composed

end ParserAlgebra
