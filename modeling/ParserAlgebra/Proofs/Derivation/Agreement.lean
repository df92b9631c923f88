import ParserAlgebra.Catalogue.Readers
import ParserAlgebra.Parser.Tokens
import ParserAlgebra.Proofs.Derivation.Completeness

/-!
# Proofs/Derivation/Agreement — parsers do what their grammar means

    ∃ fuel, the run reads as v   ⟺   parser ⊢ tokens ⟶ v

A grammar is built from rules by the combinators, and each rule delegates to a parser that was built
so (`Grammar`).  It is meant for some inputs: all lists of tokens that are no composites, or only
some of them, such as those of characters.  On these its mappers hand on well-shaped values, given
what the parser under them produces.

What its parsers do at a cursor is what the reference rules derive from the tokens that are left
there: the same components and the same rest, the same failures, the same errors; and a parser runs
on forever just when nothing can be derived.
-/

namespace ParserAlgebra

variable {P : Type} [Primitive P]

/-- **Parsers that are built from some**, by the combinators: on the inputs, mappers hand on
well-shaped values of what the parser under them produces, and collections no composite. -/
inductive Built (rules : String → Option (Value P)) (inputs : Set (List (Value P)))
    (heads : Set (Parser P)) : Parser P → Prop
  | head {p} (h : p ∈ heads) : Built rules inputs heads p
  | succeed : Built rules inputs heads .succeed
  | fail : Built rules inputs heads .fail
  | one : Built rules inputs heads .one
  | endOfInput : Built rules inputs heads .endOfInput
  | optional {p} (h : Built rules inputs heads p) : Built rules inputs heads p.optional
  | sequence {ps q} (h : ∀ p ∈ ps, Built rules inputs heads p) (hq : Parser.sequence ps = .ok q) :
    Built rules inputs heads q
  | alternative {ps q} (h : ∀ p ∈ ps, Built rules inputs heads p)
      (hq : Parser.alternative ps = .ok q) : Built rules inputs heads q
  | repeat0 {p f} (h : Built rules inputs heads p) (hf : Collects rules inputs p f) :
    Built rules inputs heads (p.repeat0 f)
  | repeat1 {p f} (h : Built rules inputs heads p) (hf : Collects rules inputs p f) :
    Built rules inputs heads (p.repeat1 f)
  | map {p q m} (h : Built rules inputs heads p) (hm : m.Shapely rules inputs p)
      (hq : p.map m = .ok q) : Built rules inputs heads q
  | tryMap {p q m} (h : Built rules inputs heads p) (hm : m.asFallible.Shapely rules inputs p)
      (hq : p.tryMap m = .ok q) : Built rules inputs heads q
  | named {p name} (h : Built rules inputs heads p) : Built rules inputs heads (p.named name)

/-- **A grammar**: what names are bound to, the inputs it is meant for, and the recursive rules,
each of which only delegates to a parser that is built from them. -/
structure Grammar (P : Type) [Primitive P] where
  rules : String → Option (Value P)
  inputs : Set (List (Value P))
  flat : ∀ ts ∈ inputs, Value.Flat ts
  goesOn : GoesOn inputs
  heads : Set (Parser P)
  delegates : ∀ p ∈ heads, ∃ f q, p.body = .raw f ∧ Built rules inputs heads q ∧
    Delegates rules f q

/-- The operands of a built parser are built. -/
theorem Built.over (g : Grammar P) {p : Parser P} (h : Built g.rules g.inputs g.heads p) :
    p.body.Over g.rules g.inputs (Built g.rules g.inputs g.heads) := by
  induction h with
  | head h =>
    obtain ⟨f, q, hb, hq, hf⟩ := g.delegates _ h
    rw [hb]
    exact ⟨q, hq, hf⟩
  | succeed => exact trivial
  | fail => exact trivial
  | one => exact trivial
  | endOfInput => exact trivial
  | optional h => exact h
  | sequence h hq ih =>
    obtain rfl | ⟨_, rfl⟩ := Parser.sequence_eq_ok hq
    · exact ih _ (by simp)
    · exact h
  | alternative h hq ih =>
    obtain rfl | ⟨_, rfl⟩ := Parser.alternative_eq_ok hq
    · exact ih _ (by simp)
    · exact h
  | repeat0 h hf => exact ⟨h, hf⟩
  | repeat1 h hf => exact ⟨h, hf⟩
  | map h hm hq | tryMap h hm hq =>
    obtain ⟨_, rfl⟩ := Parser.map_eq_ok hq
    exact ⟨h, hm⟩
  | named _ ih => exact ih

/-- **Runs and derivations agree.**  On the inputs of the grammar, every finished run of one of its
parsers has a verdict, the verdicts of its runs are those that are derived from the tokens that are
left, and no run finishes if there is none. -/
theorem reads_iff_derives (g : Grammar P) {p : Parser P} (hp : Built g.rules g.inputs g.heads p)
    {c : Cursor (Value P)} (hc : c.Readable) (hr : c.remaining ∈ g.inputs) (i : Identity) :
    let run (fuel : Nat) : Run Unit P (Value P) :=
      call (quiet g.rules) fuel (.parser p) [.cursor c i]
    (∀ fuel, (run fuel).outcome = .error .exhausted ∨ ∃ v, Reads (run fuel).outcome v) ∧
    (∀ v, (∃ fuel, Reads (run fuel).outcome v) ↔ Derives g.rules (.body p.body) c.remaining v) ∧
    ((∀ fuel, (run fuel).outcome = .error .exhausted) ↔
      ∀ v, ¬Derives g.rules (.body p.body) c.remaining v) := by
  intro run
  have hps : ∀ q ∈ {q | Built g.rules g.inputs g.heads q},
      q.body.Over g.rules g.inputs {q | Built g.rules g.inputs g.heads q} :=
    fun q hq => hq.over g
  have clear : c.Clear := ⟨hc, g.flat _ hr⟩
  have sound (fuel : Nat) : Settles Reads (Derives g.rules (.body p.body) c.remaining)
      (run fuel).outcome := settles_call g.goesOn hps fuel p hp c i clear hr
  have complete {v : Verdict P} (h : Derives g.rules (.body p.body) c.remaining v) :
      ∃ fuel, Reads (run fuel).outcome v := by
    obtain ⟨fuel, hf⟩ := readsAt_of_derives g.goesOn hps h (hp.over g) hr i clear rfl
    exact ⟨fuel + 1, reads_call (Nat.lt_succ_self fuel) hf⟩
  refine ⟨fun fuel => (sound fuel).imp_right fun ⟨v, _, hv⟩ => ⟨v, hv⟩, fun v => ⟨?_, complete⟩, ?_⟩
  · rintro ⟨fuel, hv⟩
    obtain he | ⟨w, hd, hw⟩ := sound fuel
    · exact absurd he hv.finished
    · exact hv.unique hw ▸ hd
  · refine ⟨fun h v hd => ?_, fun h fuel => ?_⟩
    · obtain ⟨fuel, hv⟩ := complete hd
      exact hv.finished (h fuel)
    · obtain he | ⟨v, hd, _⟩ := sound fuel
      · exact he
      · exact absurd hd (h v)

/-! ## Opening an option

The first component of an option, read as an optional value, is the content if there is any, and
refuses otherwise. -/

section

open ParserAlgebra.Parser

variable {rules : String → Option (Value P)} {inputs : Set (List (Value P))}

/-- The only component there is is chosen as it is. -/
theorem eq_of_returns_choose {x w : Value P}
    (h : Returns rules (.action (.choose [0])) [x] (.ok w)) : w = x := by
  obtain ⟨_ | fuel, h⟩ := h
  · contradiction
  · simp only [call, Run.own_unit, bind_pure] at h
    cases h
    rfl

/-- **An option may be opened** if what the parser in it matches is well-shaped. -/
theorem shapely_opening {p : Parser P}
    (h : ∀ ts ∈ inputs, ∀ y rest, Derives rules (.body p.body) ts (.yields y rest) →
      y.value.WellShaped) :
    (Mapper.select [0]).asFallible.Shapely rules inputs p.optional := by
  intro ts hts y rest hd x i hx
  generalize hv : Verdict.yields y rest = w at hd
  cases hd with
  | @optional _ _ v hd =>
    match v with
    | .fails =>
      cases hv
      cases eq_of_returns_choose hx
    | .yields z rest =>
      cases hv
      cases eq_of_returns_choose hx
      have content := h ts hts z rest hd
      rw [content.unwrap_eq]
      exact content

/-- A token that is asked for is the only component. -/
theorem derives_token {x : Value P} {ts rest : List (Value P)} {y : Yield P}
    (h : Derives rules (.body (token x).body) ts (.yields y rest)) :
    ∃ t, ts = t :: rest ∧ y = .single t := by
  cases h with
  | map_stops _ hv => exact hv.elim
  | map hone hm =>
    generalize hw : Verdict.yields y rest = w at hm
    obtain _ | _ | _ | _ | @⟨_, a, _⟩ := hm
    cases hone with
    | one =>
      unfold Verdict.ofTest at hw
      split at hw
      · split at hw
        · cases hw
          exact ⟨_, rfl, rfl⟩
        · contradiction
      · contradiction

end

/-! ## A recursive grammar

    letters ::= opened letters | end
    opened  ::= the content of an optional "a" -/

section

open ParserAlgebra.Parser

/-- The token that the grammar is about. -/
abbrev letter : Value Catalogue := .ofText "a"

/-- The recursive rule. -/
abbrev letters : Parser Catalogue := rule "letters" (.word "letters") none

/-- An optional letter, opened. -/
abbrev opened : Parser Catalogue := (token letter).optional.mapped (Mapper.select [0]).asFallible

/-- What the rule delegates to. -/
abbrev lettersBody : Parser Catalogue :=
  alternated [sequenced [opened, letters], endOfInput]

section

variable {rules : String → Option (Value Catalogue)} {inputs : Set (List (Value Catalogue))}
  {heads : Set (Parser Catalogue)}

theorem built_letter : Built rules inputs heads (token letter) :=
  have asks : (Mapper.filter (.action (.equals letter))).Shapely rules inputs one :=
    fun _ _ _ _ _ => trivial
  .named (.named (.map .one asks rfl))

theorem built_opened (hin : ∀ ts ∈ inputs, Value.Flat ts) : Built rules inputs heads opened := by
  refine .tryMap (m := .select [0]) (.optional built_letter) (shapely_opening ?_) rfl
  intro ts hts y rest hd
  obtain ⟨t, rfl, rfl⟩ := derives_token hd
  exact Value.wellShaped_of_isComposite (hin _ hts t List.mem_cons_self)

end

theorem built_lettersBody {rules : String → Option (Value Catalogue)} :
    Built rules {ts | Value.Flat ts} {letters} lettersBody := by
  have row : ∀ p ∈ [opened, letters], Built rules {ts | Value.Flat ts} {letters} p := by
    rintro p (_ | ⟨_, _ | ⟨_, ⟨⟩⟩⟩)
    · exact built_opened fun _ => id
    · exact .head rfl
  have branches : ∀ p ∈ [sequenced [opened, letters], endOfInput],
      Built rules {ts | Value.Flat ts} {letters} p := by
    rintro p (_ | ⟨_, _ | ⟨_, ⟨⟩⟩⟩)
    · exact .sequence row rfl
    · exact .endOfInput
  exact .alternative branches rfl

/-- The grammar of one letter over and over, for any tokens that are no composites. -/
def letterGrammar : Grammar Catalogue where
  rules _ := some (.ofParser lettersBody)
  inputs := {ts | Value.Flat ts}
  flat _ := id
  goesOn _ _ h := (Value.flat_cons.1 h).2
  heads := {letters}
  delegates := by
    rintro p rfl
    exact ⟨_, lettersBody, rfl, built_lettersBody, .rule rfl⟩

theorem derives_opened {rules : String → Option (Value Catalogue)} (ts : List (Value Catalogue)) :
    Derives rules (.body opened.body) (letter :: ts) (.yields (.single letter) ts) := by
  have taken : Derives rules (.body (token letter).body) (letter :: ts)
      (.yields (.single letter) ts) :=
    .map (v := .yields (.single letter) ts) .one (.filter (a := .ok (.bool true)) ⟨1, rfl⟩)
  exact .map (v := .yields (.single letter) ts) (.optional taken)
    (.fallible (a := .ok (.present letter none)) ⟨1, rfl⟩)

/-- One letter is derived as the only component. -/
theorem derives_letters : Derives letterGrammar.rules (.body letters.body) [letter]
    (.yields (.single letter) []) := by
  have missing : Derives letterGrammar.rules (.body (token letter).body) [] .fails :=
    .map_stops .one_nil trivial
  have absent : Derives letterGrammar.rules (.body (token letter).optional.body) []
      (.yields (.single .absent) []) := .optional missing
  have refused : Derives letterGrammar.rules (.body opened.body) [] .fails :=
    .map (v := .fails) absent (.fallible (a := .ok .absent) ⟨1, rfl⟩)
  have none_left : Derives letterGrammar.rules (.body letters.body) [] (.yields .empty []) := by
    refine .delegate (q := lettersBody) (.rule rfl) (.alternative (.choice_tail ?_ ?_))
    · exact .sequence (.row_stops refused trivial)
    · exact .choice_head .endOfInput (by simp)
  refine .delegate (q := lettersBody) (.rule rfl) (.alternative (.choice_head ?_ (by simp)))
  exact .sequence (.row_cons (derives_opened []) (.row_cons none_left .row_nil))

/-- A run of the recursive grammar on one letter. -/
theorem reads_letters : Built letterGrammar.rules letterGrammar.inputs letterGrammar.heads letters ∧
    (Cursor.start ⟨none, true⟩ [letter]).Readable ∧
    (Cursor.start ⟨none, true⟩ [letter]).remaining ∈ letterGrammar.inputs ∧
    ∃ fuel, Reads (call (quiet letterGrammar.rules) fuel (.parser letters)
      [.cursor (.start ⟨none, true⟩ [letter]) none] : Run Unit Catalogue _).outcome
      (.yields (.single letter) []) := by
  have hp : Built letterGrammar.rules letterGrammar.inputs letterGrammar.heads letters :=
    .head rfl
  have hc : (Cursor.start ⟨none, true⟩ [letter]).Readable := rfl
  have hr : (Cursor.start ⟨none, true⟩ [letter]).remaining ∈ letterGrammar.inputs :=
    Value.flat_singleton.2 rfl
  exact ⟨hp, hc, hr,
    ((reads_iff_derives letterGrammar hp hc hr none).2.1 _).2 derives_letters⟩

end

end ParserAlgebra
