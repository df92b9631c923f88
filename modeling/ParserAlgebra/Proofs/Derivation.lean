import Mathlib.Data.Set.Defs
import ParserAlgebra.Call.Fuel
import ParserAlgebra.Proofs.WellShaped

/-!
# Proofs/Derivation — what a grammar means, without cursors, results or composites

    parser ⊢ tokens ⟶ fails | raises e | yields [x₁, …, xₙ] rest

A parsing expression grammar relates the tokens that are left to a *verdict*: it fails, it raises
an error, or it yields components and leaves the rest of the tokens.  The rules say so for every
kind of parser, on lists alone.  Sequences append components; alternatives go back to where they
started; a repetition is greedy and has one component, and so has an option.

A grammar that goes on forever has no verdict, since derivations are finite.

Besides parsers three more things are derived: what parsers in a row come to, what the first of some
parsers comes to, and what one parser comes to over and over (`Goal`).
-/

namespace ParserAlgebra

variable {P : Type}

/-! ## Verdicts -/

/-- Which object a composite is.  What is no composite has its own identity and needs no other. -/
def Value.holder : Value P → Identity
  | .composite _ identity => identity
  | _ => none

/-- **What a match produces**: components.  If they came together as one composite, `holder` tells
which object that was. -/
structure Yield (P : Type) where
  components : List (Value P)
  holder : Identity

namespace Yield

/-- No components. -/
def empty : Yield P := ⟨[], none⟩

/-- A single component. -/
def single (x : Value P) : Yield P := ⟨[x], none⟩

/-- The components of a value. -/
def ofValue (v : Value P) : Yield P := ⟨v.components, v.holder⟩

/-- The value that is handed on: a single component bare. -/
def value (y : Yield P) : Value P :=
  match y.components with
  | [x] => x
  | xs => .composite xs y.holder

end Yield

/-- **How parsing the tokens that are left ends.** -/
inductive Verdict (P : Type) where
  | fails
  | raises (e : Error P)
  | yields (y : Yield P) (rest : List (Value P))

namespace Verdict

/-- Whether nothing is left to go on with. -/
def Stops : Verdict P → Prop
  | yields _ _ => False
  | _ => True

/-- More components in front. -/
def prepend (xs : List (Value P)) : Verdict P → Verdict P
  | yields y rest => yields ⟨xs ++ y.components, none⟩ rest
  | v => v

/-- An optional component: an absent one, and the tokens given back, instead of a failure. -/
def orAbsent (tokens : List (Value P)) : Verdict P → Verdict P
  | fails => yields (.single .absent) tokens
  | raises e => raises e
  | yields y rest => yields (.single (.present y.value none)) rest

/-- What a function answered, as components. -/
def ofAnswer (rest : List (Value P)) : Except (Error P) (Value P) → Verdict P
  | .ok x => yields (.ofValue x) rest
  | .error e => raises e

/-- What a function answered that may refuse: an optional value, or else that is an error, which
shows the answer. -/
def ofOptional (rest : List (Value P)) : Except (Error P) (Value P) → Verdict P
  | .ok (.present x _) => yields (.ofValue x.unwrap) rest
  | .ok .absent => fails
  | .ok (.anotherAbsent _) => fails
  | .ok w => raises (if w.isWritable then .badOutcome w else .mistyped)
  | .error e => raises e

/-- What a predicate answered about components that are passed on if it holds. -/
def ofTest (y : Yield P) (rest : List (Value P)) : Except (Error P) (Value P) → Verdict P
  | .ok b => if b.isTruthy then yields y rest else fails
  | .error e => raises e

end Verdict

/-! ## What functions answer -/

variable [Primitive P] (rules : String → Option (Value P))

/-- **What a function answers**, or raises, given enough fuel. -/
def Returns (f : Callable P) (args : List (Value P)) (a : Except (Error P) (Value P)) : Prop :=
  ∃ fuel, (call (quiet rules) fuel f args : Run Unit P (Value P)).outcome = a.mapError .raised

/-- **A mapper applied to components**, with the tokens that are left then. -/
inductive Maps (xs rest : List (Value P)) : Mapper P → Verdict P → Prop
  | total {f n a} (h : Returns rules f xs a) :
    Maps xs rest (.total f n) (.ofAnswer rest (a.map Value.unwrap))
  | fallible {f n a} (h : Returns rules f xs a) : Maps xs rest (.fallible f n) (.ofOptional rest a)
  | select {indices ys} (h : (indices.mapM fun i => xs[i]?) = some ys) :
    Maps xs rest (.select indices) (.yields ⟨ys, none⟩ rest)
  | beyond {indices} (h : (indices.mapM fun i => xs[i]?) = none) :
    Maps xs rest (.select indices) (.raises .outOfRange)
  | filter {f a} (h : Returns rules f xs a) :
    Maps xs rest (.filter f) (.ofTest ⟨xs, none⟩ rest a)

/-- **What becomes of the items of a repetition**: one list of them goes through the collection. -/
inductive Gathers (f : Callable P) : Verdict P → Verdict P → Prop
  | stops {v} (h : v.Stops) : Gathers f v v
  | answers {items holder rest a} (h : Returns rules f [.list items none] a) :
    Gathers f (.yields ⟨items, holder⟩ rest) (.ofAnswer rest a)

/-- **A function that only hands its cursor to a parser**: the parser itself, a name that is bound
to it, or a function of the host that calls it and returns what it returned. -/
inductive Delegates : Value P → Parser P → Prop
  | parser {q i} : Delegates (.callable (.parser q) i) q
  | rule {name q i j} (h : rules name = some (.callable (.parser q) j)) :
    Delegates (.callable (.action (.rule name)) i) q
  | host {f q i j} (h : ∀ c, Primitive.call f [c] =
      .calls (.callable (.parser q) j) [c] .answers) :
    Delegates (.callable (.action (.primitive f)) i) q

/-! ## Derivations -/

/-- **What is derived**: a parser, parsers in a row, the first of some parsers that matches, or one
parser over and over. -/
inductive Goal (P : Type) where
  | body (b : Body P)
  | row (ps : List (Parser P))
  | choice (ps : List (Parser P))
  | many (p : Parser P)

/-- **The rules of parsing expression grammars.**  A row yields the components of its parsers, a
repetition one value for each match. -/
inductive Derives : Goal P → List (Value P) → Verdict P → Prop
  | succeed {ts} : Derives (.body .succeed) ts (.yields .empty ts)
  | fail {ts} : Derives (.body .fail) ts .fails
  | one {t ts} : Derives (.body .one) (t :: ts) (.yields (.single t) ts)
  | one_nil : Derives (.body .one) [] .fails
  | endOfInput : Derives (.body .endOfInput) [] (.yields .empty [])
  | endOfInput_cons {t ts} : Derives (.body .endOfInput) (t :: ts) .fails
  | optional {p ts v} (h : Derives (.body p.body) ts v) :
    Derives (.body (.optional p)) ts (v.orAbsent ts)
  | sequence {ps ts v} (h : Derives (.row ps) ts v) : Derives (.body (.sequence ps)) ts v
  | alternative {ps ts v} (h : Derives (.choice ps) ts v) : Derives (.body (.alternative ps)) ts v
  | repeat0 {p f ts v w} (h : Derives (.many p) ts v) (hw : Gathers rules f v w) :
    Derives (.body (.repeat0 p f)) ts w
  | repeat1_stops {p f ts v} (h : Derives (.body p.body) ts v) (hv : v.Stops) :
    Derives (.body (.repeat1 p f)) ts v
  | repeat1 {p f ts y mid v w} (h : Derives (.body p.body) ts (.yields y mid))
      (hv : Derives (.many p) mid v) (hw : Gathers rules f (v.prepend [y.value]) w) :
    Derives (.body (.repeat1 p f)) ts w
  | map_stops {p m ts v} (h : Derives (.body p.body) ts v) (hv : v.Stops) :
    Derives (.body (.map p m)) ts v
  | map {p m ts y rest v} (h : Derives (.body p.body) ts (.yields y rest))
      (hv : Maps rules y.components rest m v) : Derives (.body (.map p m)) ts v
  | delegate {f q ts v} (hf : Delegates rules f q) (h : Derives (.body q.body) ts v) :
    Derives (.body (.raw f)) ts v
  | row_nil {ts} : Derives (.row []) ts (.yields .empty ts)
  | row_stops {p ps ts v} (h : Derives (.body p.body) ts v) (hv : v.Stops) :
    Derives (.row (p :: ps)) ts v
  | row_cons {p ps ts y mid v} (h : Derives (.body p.body) ts (.yields y mid))
      (hv : Derives (.row ps) mid v) : Derives (.row (p :: ps)) ts (v.prepend y.components)
  | choice_nil {ts} : Derives (.choice []) ts .fails
  | choice_head {p ps ts v} (h : Derives (.body p.body) ts v) (hv : v ≠ .fails) :
    Derives (.choice (p :: ps)) ts v
  | choice_tail {p ps ts v} (h : Derives (.body p.body) ts .fails)
      (hv : Derives (.choice ps) ts v) : Derives (.choice (p :: ps)) ts v
  | many_fails {p ts} (h : Derives (.body p.body) ts .fails) :
    Derives (.many p) ts (.yields .empty ts)
  | many_raises {p ts e} (h : Derives (.body p.body) ts (.raises e)) :
    Derives (.many p) ts (.raises e)
  | many_yields {p ts y mid v} (h : Derives (.body p.body) ts (.yields y mid))
      (hv : Derives (.many p) mid v) : Derives (.many p) ts (v.prepend [y.value])

/-! ## What is left

A grammar goes on with what is left of its tokens and with nothing else, so whatever is asked of
token lists need only be asked of those it can come to. -/

/-- **Closed under going on**: what is left behind a token of a list is one of the lists again. -/
def GoesOn (inputs : Set (List (Value P))) : Prop := ∀ t ts, t :: ts ∈ inputs → ts ∈ inputs

/-- What is left, if anything matched, is one of the lists. -/
def Verdict.Leaves (inputs : Set (List (Value P))) : Verdict P → Prop
  | yields _ rest => rest ∈ inputs
  | _ => True

variable {rules} {inputs : Set (List (Value P))}

omit [Primitive P] in
theorem Verdict.Stops.leaves {v : Verdict P} (h : v.Stops) : v.Leaves inputs := by
  cases v with
  | yields y rest => exact h.elim
  | _ => trivial

omit [Primitive P] in
theorem Verdict.leaves_prepend {v : Verdict P} (h : v.Leaves inputs) (xs : List (Value P)) :
    (v.prepend xs).Leaves inputs := by
  cases v <;> exact h

theorem Maps.leaves {xs rest : List (Value P)} {m : Mapper P} {v : Verdict P}
    (h : Maps rules xs rest m v) (hr : rest ∈ inputs) : v.Leaves inputs := by
  cases h with
  | @total f n a ha => cases a <;> first | exact hr | trivial
  | fallible ha =>
    unfold Verdict.ofOptional
    split <;> first | exact hr | trivial
  | select => exact hr
  | beyond => trivial
  | filter ha =>
    unfold Verdict.ofTest
    split
    · split <;> first | exact hr | trivial
    · trivial

theorem Gathers.leaves {f : Callable P} {v w : Verdict P} (h : Gathers rules f v w)
    (hv : v.Leaves inputs) : w.Leaves inputs := by
  cases h with
  | stops => exact hv
  | @answers _ _ _ a => cases a <;> first | exact hv | trivial

/-- **Whatever is derived leaves some of the lists behind.** -/
theorem Derives.leaves (hin : GoesOn inputs) {goal : Goal P} {ts : List (Value P)} {v : Verdict P}
    (h : Derives rules goal ts v) (hts : ts ∈ inputs) : v.Leaves inputs := by
  induction h with
  | succeed | endOfInput | row_nil | many_fails => exact hts
  | fail | one_nil | endOfInput_cons | choice_nil | many_raises => trivial
  | one => exact hin _ _ hts
  | @optional p ts v _ ih =>
    match v with
    | .fails => exact hts
    | .raises e => trivial
    | .yields y rest => exact ih hts
  | sequence _ ih | alternative _ ih | delegate _ _ ih | choice_head _ _ ih => exact ih hts
  | repeat0 _ hw ih => exact hw.leaves (ih hts)
  | repeat1_stops _ hv | map_stops _ hv | row_stops _ hv => exact hv.leaves
  | repeat1 _ _ hw ih ih' => exact hw.leaves (Verdict.leaves_prepend (ih' (ih hts)) _)
  | map _ hv ih => exact hv.leaves (ih hts)
  | row_cons _ _ ih ih' | many_yields _ _ ih ih' => exact Verdict.leaves_prepend (ih' (ih hts)) _
  | choice_tail _ _ _ ih' => exact ih' hts

end ParserAlgebra
