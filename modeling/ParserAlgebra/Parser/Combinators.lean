import ParserAlgebra.Mapper
import ParserAlgebra.Value.Equality

/-!
# Parser/Combinators — putting parsers together

Each combinator computes three things from its operands: a name, what is known of the number of
components, and what to do at a cursor.  Where something can clash the combinator is checked: it
answers with an error or with a parser, and the parser itself is built by an unchecked constructor
of its own (`sequenced`, `alternated`, `mapped`), so that what a grammar *is* can be stated apart
from whether it is admitted.

Two kinds of things clash.  Shapes do: a mapper may need more components than there are, and
branches may differ in how many they produce.  And so do declarations: names that are no texts
cannot be joined, arities that are no numbers can be neither added nor compared, and a name without
a written form cannot be part of another name.

## Operators

`both` and `either` are the binary forms of `sequence` and `alternative`.  Written over and over
they keep a flat list of operands: a parser remembers the operands it was chained from, and chaining
it again with the same operator appends to them.
-/

namespace ParserAlgebra.Parser

variable {P : Type}

/-! ## Leaves -/

/-- Always succeeds, with no components, consuming nothing. -/
def succeed : Parser P :=
  { name := .word "succeed", declared := some (.ofInt 0), body := .succeed }

/-- Always fails. -/
def fail : Parser P := { name := .word "fail", declared := none, body := .fail }

/-- Consumes a single token and produces it; fails at the end. -/
def one : Parser P := { name := .word "one", declared := some (.ofInt 1), body := .one }

/-- Succeeds at the end only, with no components. -/
def endOfInput : Parser P :=
  { name := .word "end_of_input", declared := some (.ofInt 0), body := .endOfInput }

/-- What a callable makes of the cursor, under a name, with a declared arity. -/
def raw (f name : Value P) (declared : Option (Value P)) : Parser P :=
  { name, declared, body := .raw f }

/-- **A recursive rule**: delegates to whatever `target` is bound to when it runs. -/
def rule (target : String) (name : Value P) (declared : Option (Value P)) : Parser P :=
  raw (.ofAction (.rule target)) name declared

/-- The same parser under another name.  It is no longer part of a chain of operators. -/
def named (p : Parser P) (name : Value P) : Parser P := { p with name, chain := none }

/-- The parser itself, if its name can be shown. -/
def titled (p : Parser P) : Except (Error P) (Parser P) :=
  if p.name.isWritable then .ok p else .error .mistyped

/-! ## What the operands come to -/

/-- The sum of all arities, if all are known. -/
def sumArity : List (Parser P) → Option Number
  | [] => some (.int 0)
  | p :: ps => match p.declared, sumArity ps with
    | some m, some n => some ((m.number?.getD (.int 0)).add n)
    | _, _ => none

/-- The arities that are known, in order. -/
def knownArities (ps : List (Parser P)) : List (Value P) := ps.filterMap (·.declared)

/-- The arity all parsers share, as the first declares it, if all are known. -/
def sharedArity (ps : List (Parser P)) : Option (Value P) :=
  if ps.all (·.declared.isSome) then (knownArities ps).head? else none

/-- Whether the arities add up: one of them is unknown, or all are numbers. -/
def summable (ps : List (Parser P)) : Bool :=
  ps.any (·.declared.isNone) || (knownArities ps).all (·.number?.isSome)

/-- Whether all names are texts. -/
def allNamed (ps : List (Parser P)) : Bool := ps.all (·.name.isText)

/-- Whether no two known arities differ. -/
def agree : List (Value P) → Bool
  | [] => true
  | n :: ns => ns.all n.equals

@[simp] theorem named_name (p : Parser P) (name : Value P) : (p.named name).name = name := rfl
@[simp] theorem named_arity (p : Parser P) (name : Value P) :
    (p.named name).arity = p.arity := rfl
@[simp] theorem named_body (p : Parser P) (name : Value P) : (p.named name).body = p.body := rfl

/-- The known arities are those that some parser declares. -/
theorem mem_knownArities {ps : List (Parser P)} {n : Value P} :
    n ∈ knownArities ps ↔ ∃ p ∈ ps, p.declared = some n := List.mem_filterMap

/-- What can be shown is the parser itself. -/
theorem titled_eq_ok {p q : Parser P} (h : p.titled = .ok q) : q = p := by
  unfold titled at h
  split at h
  · cases h
    rfl
  · contradiction

/-- A parser named by a text can be part of any name. -/
theorem titled_of_isText {p : Parser P} (h : p.name.isText = true) : p.titled = .ok p := by
  have hw : p.name.isWritable = true := by
    cases hn : p.name <;> simp_all [Value.isText, Value.isWritable]
  simp [titled, hw]

section

variable [Labelled P]

/-- Names joined by an operator, in parentheses. -/
def joinedName (operator : String) (ps : List (Parser P)) : String :=
  "(" ++ operator.intercalate (ps.map title) ++ ")"

/-! ## Unchecked combinations -/

/-- One after the other; the values are concatenated. -/
def sequenced (ps : List (Parser P)) : Parser P :=
  { name := .newText (joinedName " & " ps)
    declared := (sumArity ps).map Value.ofNumber
    body := .sequence ps }

/-- The first that matches, each tried from the same cursor. -/
def alternated (ps : List (Parser P)) : Parser P :=
  { name := .newText (joinedName " | " ps), declared := sharedArity ps, body := .alternative ps }

/-- A parser whose value goes through a mapper. -/
def mapped (p : Parser P) (m : Mapper P) : Parser P :=
  { name := if m.isFallible then .newText (p.title ++ "?") else p.name
    declared := m.resultArity p.declared
    body := .map p m }

/-- A parser whose value is dropped. -/
def skipped (p : Parser P) : Parser P :=
  (p.mapped .discard).named (.newText ("skip(" ++ p.title ++ ")"))

/-! ## Repetition and option -/

/-- Always succeeds: a present value if `p` matched, an absent one otherwise. -/
def optional (p : Parser P) : Parser P :=
  { name := .newText ("~" ++ p.title), declared := some (.ofInt 1), body := .optional p }

/-- As many matches as there are, handed to the collection in order. -/
def repeat0 (p : Parser P) (collection : Callable P) : Parser P :=
  { name := .newText (p.title ++ "*"), declared := some (.ofInt 1), body := .repeat0 p collection }

/-- The same, with at least one match. -/
def repeat1 (p : Parser P) (collection : Callable P) : Parser P :=
  { name := .newText ("+" ++ p.title), declared := some (.ofInt 1), body := .repeat1 p collection }

/-! ## Checked combinations -/

/-- **All parsers one after the other.**  A sequence of one is that parser. -/
def sequence : List (Parser P) → Except (Error P) (Parser P)
  | [] => .error (.grammar .noParsers)
  | [p] => .ok p
  | ps => if summable ps && allNamed ps then .ok (sequenced ps) else .error .mistyped

/-- What an alternative of branches that differ is refused with.  The message shows every parser of
known arity. -/
def branchesDiffer (ps : List (Parser P)) : Error P :=
  let shapes := ps.filterMap fun p => p.declared.map fun n => (p, n)
  if shapes.all fun s => s.1.name.isWritable && s.2.isWritable then
    .grammar (.branchesDiffer shapes)
  else .mistyped

/-- **The first parser that matches.**  Branches known to produce different numbers of components
are refused; an alternative of one is that parser. -/
def alternative : List (Parser P) → Except (Error P) (Parser P)
  | [] => .error (.grammar .noParsers)
  | [p] => .ok p
  | ps =>
    if Value.allHashable (knownArities ps) then
      if agree (knownArities ps) then
        if allNamed ps then .ok (alternated ps) else .error .mistyped
      else .error (branchesDiffer ps)
    else .error .mistyped

/-- Refuses a parser that is known to produce too few components for a mapper. -/
def checkArity (p : Parser P) (m : Mapper P) : Except (Error P) Unit :=
  match p.declared with
  | none => .ok ()
  | some arity => match arity.number? with
    | none => .error .mistyped
    | some n =>
      if n.lessThan (.int m.requires) then
        p.titled.bind fun p => .error (.grammar (.tooFew p arity m.requires))
      else .ok ()

/-- **The parser followed by the mapper**, unless it is known to produce too few components. -/
def map (p : Parser P) (m : Mapper P) : Except (Error P) (Parser P) := do
  p.checkArity m
  if m.isFallible then return (← p.titled).mapped m else return p.mapped m

/-- Like `map`, with the mapper's answer read as an optional value. -/
def tryMap (p : Parser P) (m : Mapper P) : Except (Error P) (Parser P) := p.map m.asFallible

/-- Matches `p` and drops what it produced. -/
def skip (p : Parser P) : Except (Error P) (Parser P) := do
  let _ ← p.map .discard
  return (← p.titled).skipped

/-! ## Operators -/

/-- The operands a parser was chained from with one operator; by itself it is its only operand. -/
def operands (junction : Junction) (p : Parser P) : List (Parser P) :=
  match p.chain with
  | some (j, ps) => if j = junction then ps else [p]
  | none => [p]

/-- The combinator an operator stands for. -/
def join : Junction → List (Parser P) → Except (Error P) (Parser P)
  | .sequence => sequence
  | .alternative => alternative

/-- Two parsers under an operator, with the operands of both remembered. -/
def chained (junction : Junction) (p q : Parser P) : Except (Error P) (Parser P) := do
  let parts := p.operands junction ++ q.operands junction
  let r ← join junction parts
  return { r with chain := some (junction, parts) }

/-- `p`, then `q`. -/
def both (p q : Parser P) : Except (Error P) (Parser P) := chained .sequence p q

/-- `p`, or else `q`. -/
def either (p q : Parser P) : Except (Error P) (Parser P) := chained .alternative p q

/-! ## What the checks come to -/

@[simp] theorem sequence_singleton (p : Parser P) : sequence [p] = .ok p := rfl

/-- Parsers named by texts, of arities that add up, can always be put in a row. -/
theorem sequence_cons_cons {p q : Parser P} {ps : List (Parser P)}
    (hs : summable (p :: q :: ps) = true) (hn : allNamed (p :: q :: ps) = true) :
    sequence (p :: q :: ps) = .ok (sequenced (p :: q :: ps)) := by
  simp [sequence, hs, hn]

@[simp] theorem alternative_singleton (p : Parser P) : alternative [p] = .ok p := rfl

/-- A sequence that is admitted is its only operand, or all of them in a row. -/
theorem sequence_eq_ok {ps : List (Parser P)} {q : Parser P} (h : sequence ps = .ok q) :
    ps = [q] ∨ summable ps = true ∧ q = sequenced ps := by
  match ps with
  | [] => contradiction
  | [p] =>
    cases h
    exact .inl rfl
  | p :: r :: ps =>
    simp only [sequence] at h
    split at h
    · rename_i hs
      cases h
      exact .inr ⟨(Bool.and_eq_true _ _ ▸ hs).1, rfl⟩
    · contradiction

/-- The same of an alternative; known arities can be hashed and do not differ then. -/
theorem alternative_eq_ok {ps : List (Parser P)} {q : Parser P} (h : alternative ps = .ok q) :
    ps = [q] ∨ (Value.allHashable (knownArities ps) = true ∧ agree (knownArities ps) = true) ∧
      q = alternated ps := by
  match ps with
  | [] => contradiction
  | [p] =>
    cases h
    exact .inl rfl
  | p :: r :: ps =>
    simp only [alternative] at h
    split at h
    · rename_i hh
      split at h
      · rename_i ha
        split at h
        · cases h
          exact .inr ⟨⟨hh, ha⟩, rfl⟩
        · contradiction
      · contradiction
    · contradiction

/-- Two parsers or more are put in a row as they are. -/
theorem eq_sequenced_of_sequence {p q r : Parser P} {ps : List (Parser P)}
    (h : sequence (p :: q :: ps) = .ok r) : r = sequenced (p :: q :: ps) := by
  obtain hp | ⟨_, hr⟩ := sequence_eq_ok h
  · simp at hp
  · exact hr

theorem eq_alternated_of_alternative {p q r : Parser P} {ps : List (Parser P)}
    (h : alternative (p :: q :: ps) = .ok r) : r = alternated (p :: q :: ps) := by
  obtain hp | ⟨_, hr⟩ := alternative_eq_ok h
  · simp at hp
  · exact hr

theorem map_eq_ok {p q : Parser P} {m : Mapper P} (h : p.map m = .ok q) :
    p.checkArity m = .ok () ∧ q = p.mapped m := by
  obtain ⟨u, hc, h⟩ := exists_ok_of_bind h
  refine ⟨hc, ?_⟩
  split at h
  · obtain ⟨r, hr, h⟩ := exists_ok_of_bind h
    cases h
    rw [titled_eq_ok hr]
  · cases h
    rfl

theorem skip_eq_ok {p q : Parser P} (h : p.skip = .ok q) :
    p.checkArity .discard = .ok () ∧ q = p.skipped := by
  obtain ⟨r, hm, h⟩ := exists_ok_of_bind h
  obtain ⟨s, hs, h⟩ := exists_ok_of_bind h
  cases h
  exact ⟨(map_eq_ok hm).1, by rw [titled_eq_ok hs]⟩

/-- A mapper that requires nothing refuses no parser of known, non-negative arity. -/
theorem map_of_requires_zero {p : Parser P} {m : Mapper P} {n : Int} (hn : p.name.isText = true)
    (h : m.requires = 0) (hp : p.declared = some (.ofInt n)) (hn0 : 0 ≤ n) :
    p.map m = .ok (p.mapped m) := by
  have hc : p.checkArity m = .ok () := by
    have hk : (Value.ofInt n : Value P).number? = some (.int n) := rfl
    simp only [checkArity, hp, hk, h, Number.lessThan_int]
    rw [if_neg (by simpa using hn0)]
  simp only [map, hc, titled_of_isText hn]
  cases m.isFallible <;> rfl

end

end ParserAlgebra.Parser
