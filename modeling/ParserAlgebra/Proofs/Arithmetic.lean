import ParserAlgebra.Catalogue.Readers
import ParserAlgebra.Proofs.Finds.General

/-!
# Proofs/Arithmetic — a written formula comes to its value

    expr ::= sum                                 sum ::= product (("+" | "-") product)*
    atom ::= number | "(" expr ")"               product ::= atom ("*" atom)*

A formula is a tree, and there are many ways to write it down: all parentheses that precedence and
associativity ask for have to be there, and any others may be (`Written`).  The grammar knows no
trees.  It folds a chain of operands as it reads them, so what it finds is not the formula but its
value, and every way to write the formula has to come to the same.

## What the induction is on

At its own level an operator's left operand is no piece of the input that a single parser finds: it
is the beginning of the chain that the operator goes on with.  So what is shown of a written formula
is that it may begin any chain, whatever steps follow (`Begins`).  With no steps behind it, that
chain is the formula itself (`Reads`).
-/

namespace ParserAlgebra

variable {P : Type}

namespace Arithmetic

/-! ## Formulas -/

inductive Operator where
  | times
  | plus
  | minus
deriving DecidableEq

namespace Operator

def text : Operator → String
  | times => "*"
  | plus => "+"
  | minus => "-"

/-- How tightly an operator binds. -/
def level : Operator → Nat
  | times => 1
  | plus => 0
  | minus => 0

theorem level_lt (op : Operator) : op.level < 2 := by cases op <;> decide

/-- An operator is told by its text. -/
theorem text_inj {op op' : Operator} : op.text = op'.text ↔ op = op' := by
  cases op <;> cases op' <;> decide

end Operator

/-- **A formula**: whole numbers, and operators between formulas. -/
inductive Formula where
  | number (i : Int) (identity : Identity)
  | binary (op : Operator) (left right : Formula)

namespace Formula

/-- **The value of a formula** under some functions for its operators. -/
def value (apply : Operator → Value P → Value P → Value P) : Formula → Value P
  | number i identity => .int i identity
  | binary op left right => apply op (left.value apply) (right.value apply)

/-- **The ways to write a formula** where nothing that binds less tightly than `least` may stand
without parentheses.  Operators of one level group to the left. -/
inductive Written : Nat → Formula → List (Value P) → Prop
  | number {least i k} : Written least (.number i k) [.int i k]
  | binary {least op left right ts us k} (h : least ≤ op.level) (hl : Written op.level left ts)
      (hr : Written (op.level + 1) right us) :
    Written least (.binary op left right) (ts ++ ([.text op.text k] ++ us))
  | parentheses {least e ts j k} (h : Written 0 e ts) :
    Written least e ([.text "(" j] ++ (ts ++ [.text ")" k]))

/-- The formula with no more parentheses than it needs. -/
def tokens : Nat → Formula → List (Value P)
  | _, number i k => [.int i k]
  | least, binary op left right =>
    let bare := left.tokens op.level ++ ([.ofText op.text] ++ right.tokens (op.level + 1))
    if least ≤ op.level then bare else [.ofText "("] ++ (bare ++ [.ofText ")"])

/-- Every formula can be written. -/
theorem written_tokens (e : Formula) (least : Nat) :
    e.Written least (e.tokens least : List (Value P)) := by
  induction e generalizing least with
  | number i k => exact .number
  | binary op left right ihl ihr =>
    unfold tokens
    split
    · rename_i h
      exact .binary h (ihl _) (ihr _)
    · exact .parentheses (.binary (Nat.zero_le _) (ihl _) (ihr _))

end Formula

/-! ## The grammar -/

section

variable [Labelled P]

open ParserAlgebra.Parser

/-- An operator's token, producing its function. -/
def operator (function : Operator → Value P) (op : Operator) : Except (Error P) (Parser P) :=
  (token (.ofText op.text)).map (.ofCallable (.action (.constant (function op))))

/-- **Sums of products of atoms**, over a parser for what stands in parentheses. -/
def grammar (isNumber : Callable P) (function : Operator → Value P) (expr : Parser P) :
    Except (Error P) (Parser P) := do
  let parens ← (← sequence [token (.ofText "("), expr, token (.ofText ")")]).map (.select [1])
  let atom ← alternative [satisfy isNumber, parens]
  let product ← atom.chainLeft (← operator function .times)
  product.chainLeft (← alternative [← operator function .plus, ← operator function .minus])

/-- An expression between parentheses, which are components still. -/
abbrev enclosed (expr : Parser P) : Parser P :=
  sequenced [token (.ofText "("), expr, token (.ofText ")")]

/-- What `operator` answers with. -/
abbrev operatorParser (function : Operator → Value P) (op : Operator) : Parser P :=
  (token (.ofText op.text)).mapped (.ofCallable (.action (.constant (function op))))

theorem operator_eq_ok {function : Operator → Value P} {op : Operator} {q : Parser P}
    (h : operator function op = .ok q) : q = operatorParser function op := (map_eq_ok h).2

/-- The operators of a level. -/
def operators (function : Operator → Value P) : Nat → Parser P
  | 0 => alternated [operatorParser function .plus, operatorParser function .minus]
  | _ => operatorParser function .times

theorem isText_satisfy (f : Callable P) : (satisfy f).name.isText = true := by
  cases f with
  | action a => cases h : a.name? <;> simp [satisfy, Callable.name?, h] <;> rfl
  | _ => rfl

/-- **The grammar is admitted**, whatever its functions are, over a named rule of unknown arity. -/
theorem exists_grammar (isNumber : Callable P) (function : Operator → Value P) {expr : Parser P}
    (hn : expr.name.isText = true) (hd : expr.declared = none) :
    ∃ sum, grammar isNumber function expr = .ok sum := by
  have operators (op : Operator) : operator function op = .ok (operatorParser function op) :=
    map_of_requires_zero rfl rfl rfl (Int.zero_le_ofNat 1)
  have row : sequence [token (.ofText "("), expr, token (.ofText ")")] = .ok (enclosed expr) := by
    refine sequence_cons_cons ?_ ?_
    · simp [summable, hd]
    · simp [allNamed, hn]
      exact ⟨rfl, rfl⟩
  have unknown : (enclosed expr).declared = none := by simp [sequenced, sumArity, hd]
  have parens : (enclosed expr).map (.select [1]) = .ok ((enclosed expr).mapped (.select [1])) := by
    simp only [map, checkArity, unknown]
    rfl
  have atom : alternative [satisfy isNumber, (enclosed expr).mapped (.select [1])] =
      .ok (alternated [satisfy isNumber, (enclosed expr).mapped (.select [1])]) := by
    simp only [alternative, allNamed, List.all_cons, isText_satisfy isNumber]
    rfl
  simp only [grammar, row, bind, Except.bind, parens, atom, operators]
  exact ⟨_, rfl⟩

end

/-- **Arithmetic on some values**: a test for whole numbers, and for each operator a function that
returns one of the values for any two of them. -/
structure Functions (P : Type) [Primitive P] (rules : String → Option (Value P)) where
  isNumber : Callable P
  function : Operator → Value P
  apply : Operator → Value P → Value P → Value P
  values : Set (Value P)
  int_mem : ∀ i k, .int i k ∈ values
  apply_mem : ∀ op, ∀ x ∈ values, ∀ y ∈ values, apply op x y ∈ values
  isComposite_of_mem : ∀ x ∈ values, x.isComposite = false
  tests : ∀ t : Value P, t.isComposite = false →
    ∃ b, Returns rules isNumber [t] (.ok b) ∧ (b.isTruthy = true ↔ ∃ i k, t = .int i k)
  returns : ∀ op, ∃ f k, function op = .callable f k ∧
    ∀ x ∈ values, ∀ y ∈ values, Returns rules f [x, y] (.ok (apply op x y))

/-- **A recursive grammar**: what its rule `expr` delegates to is made of that rule. -/
structure Recursive [Primitive P] {rules : String → Option (Value P)} (a : Functions P rules) where
  expr : Parser P
  target : Value P
  sum : Parser P
  body_expr : expr.body = .raw target
  delegates : Delegates rules target sum
  grammar_eq : grammar a.isNumber a.function expr = .ok sum

/-! ## The levels of the grammar -/

section

variable [Primitive P] {rules : String → Option (Value P)} {a : Functions P rules}

open ParserAlgebra.Parser Value

/-- **What a recursive grammar is made of**: sums at level zero, products at level one, atoms at
level two. -/
structure Levels (a : Functions P rules) where
  expr : Parser P
  target : Value P
  parser : Nat → Parser P
  body_expr : expr.body = .raw target
  delegates : Delegates rules target (parser 0)
  chain : ∀ k < 2, (parser (k + 1)).chainLeft (operators a.function k) = .ok (parser k)
  atom : (parser 2).body =
    .alternative [satisfy a.isNumber, (enclosed expr).mapped (.select [1])]

theorem Recursive.exists_levels (g : Recursive a) : ∃ l : Levels a, l.expr = g.expr := by
  obtain ⟨row, hrow, h⟩ := exists_ok_of_bind g.grammar_eq
  obtain ⟨parens, hparens, h⟩ := exists_ok_of_bind h
  obtain ⟨atom, hatom, h⟩ := exists_ok_of_bind h
  obtain ⟨times, htimes, h⟩ := exists_ok_of_bind h
  obtain ⟨product, hproduct, h⟩ := exists_ok_of_bind h
  obtain ⟨plus, hplus, h⟩ := exists_ok_of_bind h
  obtain ⟨minus, hminus, h⟩ := exists_ok_of_bind h
  obtain ⟨additive, hadditive, h⟩ := exists_ok_of_bind h
  rw [(map_eq_ok hparens).2, eq_sequenced_of_sequence hrow] at hatom
  rw [operator_eq_ok htimes] at hproduct
  rw [operator_eq_ok hplus, operator_eq_ok hminus] at hadditive
  rw [eq_alternated_of_alternative hadditive] at h
  refine ⟨⟨g.expr, g.target, fun | 0 => g.sum | 1 => product | _ => atom, g.body_expr, g.delegates,
    fun k hk => ?_, ?_⟩, rfl⟩
  · match k, hk with
    | 0, _ => exact h
    | 1, _ => exact hproduct
  · rw [eq_alternated_of_alternative hatom]
    rfl

/-- **What may come behind a piece** that is read at a level: no operator of that level or above. -/
def Ends (k : Nat) (rest : List (Value P)) : Prop :=
  NextNot (fun t => ∃ op : Operator, k ≤ op.level ∧ t.equals (.ofText op.text) = true) rest

omit [Primitive P] in
/-- Above its own level, an operator ends a piece. -/
theorem ends_operator {op : Operator} {j : Identity} {ts : List (Value P)} :
    Ends (op.level + 1) (.text op.text j :: ts) := by
  refine nextNot_cons.2 ⟨rfl, ?_⟩
  rintro ⟨op', hlevel, heq⟩
  rw [ofText, equals_text, beq_iff_eq, Operator.text_inj] at heq
  subst heq
  omega

omit [Primitive P] in
theorem Ends.mono {j k : Nat} {rest : List (Value P)} (h : Ends j rest) (hjk : j ≤ k) :
    Ends k rest :=
  fun t ht => ⟨(h t ht).1, fun ⟨op, hop, heq⟩ => (h t ht).2 ⟨op, Nat.le_trans hjk hop, heq⟩⟩

/-! ## Operators -/

theorem finds_operator (op : Operator) (j : Identity) (rest : List (Value P)) :
    Finds rules (operatorParser a.function op).body [.text op.text j] (a.function op) rest := by
  obtain ⟨f, k, hf, -⟩ := a.returns op
  have heq : (Value.text op.text j : Value P).equals (.ofText op.text) = true := by simp [ofText]
  have read : Finds rules (token (.ofText op.text)).body [.text op.text j] (.text op.text j) rest :=
    finds_token rfl heq
  have found := finds_map (m := .ofCallable (.action (.constant (a.function op)))) read rfl
    (comes_action (comes_pure _))
  rwa [unwrap_of_isComposite (by rw [hf]; rfl)] at found

theorem misses_operator {op : Operator} {rest : List (Value P)}
    (h : NextNot (fun t => t.equals (.ofText op.text) = true) rest) :
    Misses rules (operatorParser a.function op).body rest := misses_map (misses_token h)

/-- An operator is found at its level. -/
theorem finds_operators (op : Operator) (j : Identity) (rest : List (Value P)) :
    Finds rules (operators a.function op.level).body [.text op.text j] (a.function op) rest := by
  cases op with
  | times => exact finds_operator .times j rest
  | plus => exact finds_head (finds_operator .plus j rest)
  | minus =>
    refine finds_tail (misses_operator ?_) (finds_head (finds_operator .minus j rest))
    exact nextNot_cons.2 ⟨rfl, by simp [ofText, Operator.text]⟩

/-- None is found at the end of a piece. -/
theorem misses_operators {k : Nat} {rest : List (Value P)} (hk : k < 2) (h : Ends k rest) :
    Misses rules (operators a.function k).body rest := by
  have other (op : Operator) (hop : k ≤ op.level) :
      Misses rules (operatorParser a.function op).body rest :=
    misses_operator fun t ht => ⟨(h t ht).1, fun heq => (h t ht).2 ⟨op, hop, heq⟩⟩
  match k, hk with
  | 0, _ =>
    refine misses_cons (other .plus (Nat.le_refl _)) ?_
    exact misses_cons (other .minus (Nat.le_refl _)) misses_nil
  | 1, _ => exact other .times (Nat.le_refl _)

/-! ## Chains -/

/-- The value of a formula is one of the values there are. -/
theorem value_mem (a : Functions P rules) (e : Formula) : e.value a.apply ∈ a.values := by
  induction e with
  | number i k => exact a.int_mem i k
  | binary op left right ihl ihr => exact a.apply_mem op _ ihl _ ihr

theorem isComposite_value (a : Functions P rules) (e : Formula) :
    (e.value a.apply).isComposite = false := a.isComposite_of_mem _ (value_mem a e)

namespace Levels

variable (l : Levels a)

/-- One step of a chain: an operator of the level, and an operand of the level above. -/
abbrev step (k : Nat) : Parser P := sequenced [operators a.function k, l.parser (k + 1)]

/-- **A chain that folds to `w`**: an operand, and all steps that there are. -/
inductive Chained (k : Nat) : List (Value P) → Value P → List (Value P) → Prop
  | intro {ts us x w items rest} (h : Finds rules (l.parser (k + 1)).body ts x (us ++ rest))
      (hs : FindsMany rules (l.step k) us items rest) (hx : x.isComposite = false)
      (hf : Folds rules x items w) : Chained k (ts ++ us) w rest

/-- **The formula may begin a chain**: it folds to its value before the steps that follow do. -/
def Begins (k : Nat) (e : Formula) (ts : List (Value P)) : Prop :=
  ∀ us items rest w, Ends (k + 1) (us ++ rest) → FindsMany rules (l.step k) us items rest →
    Folds rules (e.value a.apply) items w → l.Chained k (ts ++ us) w rest

/-- **The formula's value is found** in a piece, by the parser of a level. -/
def Reads (k : Nat) (e : Formula) (ts : List (Value P)) : Prop :=
  ∀ rest, Ends k rest → Finds rules (l.parser k).body ts (e.value a.apply) rest

section

variable {l : Levels a} {k : Nat} {e left right : Formula} {ts us rest : List (Value P)}

theorem Chained.finds {w : Value P} (hk : k < 2) (h : l.Chained k ts w rest)
    (hw : w.isComposite = false) : Finds rules (l.parser k).body ts w rest := by
  obtain ⟨h, hs, hx, hf⟩ := h
  exact finds_chainLeft (l.chain k hk) h hs hx hw hf

/-- What is read as an operand may begin a chain of operands. -/
theorem Reads.begins (h : l.Reads (k + 1) e ts) : l.Begins k e ts :=
  fun us _ rest _ hends hs hf => .intro (h (us ++ rest) hends) hs (isComposite_value a e) hf

/-- What may begin a chain is a chain without further steps. -/
theorem Begins.reads (hk : k < 2) (h : l.Begins k e ts) : l.Reads k e ts := by
  intro rest hends
  have stop : FindsMany rules (l.step k) [] [] rest :=
    .nil (misses_sequence (misses_operators hk hends))
  have whole : l.Chained k (ts ++ []) (e.value a.apply) rest :=
    h [] [] rest _ (hends.mono (Nat.le_succ k)) stop .nil
  rw [List.append_nil] at whole
  exact whole.finds hk (isComposite_value a e)

/-- **An operator goes on with the chain that its left operand begins.** -/
theorem Begins.binary {op : Operator} (hl : l.Begins op.level left ts)
    (hr : l.Reads (op.level + 1) right us) (j : Identity) :
    l.Begins op.level (.binary op left right) (ts ++ ([.text op.text j] ++ us)) := by
  intro vs _ rest w hends hs hf
  obtain ⟨f, i, hfun, hreturns⟩ := a.returns op
  have step : Finds rules (l.step op.level).body ([.text op.text j] ++ us)
      (.composite [.callable f i, right.value a.apply] none) (vs ++ rest) := by
    rw [← concat_pair rfl (isComposite_value a right), ← hfun]
    exact finds_pair (finds_operators op j _) (hr _ hends)
  have first : Returns rules f [left.value a.apply, right.value a.apply]
      (.ok ((Formula.binary op left right).value a.apply)) :=
    hreturns _ (value_mem a left) _ (value_mem a right)
  rw [List.append_assoc]
  exact hl _ _ rest w ends_operator (.cons step hs) (.cons first hf)

/-! ## Atoms -/

theorem reads_number (i : Int) (j : Identity) : l.Reads 2 (.number i j) [.int i j] := by
  intro rest _
  obtain ⟨b, hb, htrue⟩ := a.tests (.int i j) rfl
  rw [l.atom]
  exact finds_head (finds_satisfy rfl hb (htrue.2 ⟨i, j, rfl⟩))

/-- The rule reads what a sum reads. -/
theorem Reads.expr (h : l.Reads 0 e ts) (hends : Ends 0 rest) :
    Finds rules l.expr.body ts (e.value a.apply) rest := by
  rw [l.body_expr]
  exact finds_raw l.delegates (h rest hends)

theorem Reads.parentheses {i j : Identity} (h : l.Reads 0 e ts) :
    l.Reads 2 e ([.text "(" i] ++ (ts ++ [.text ")" j])) := by
  intro rest _
  obtain ⟨b, hb, htrue⟩ := a.tests (.text "(" i) rfl
  have noNumber : b.isTruthy = false := Bool.eq_false_iff.2 fun hb => by
    obtain ⟨_, _, heq⟩ := htrue.1 hb
    cases heq
  have closing : Ends 0 ([.text ")" j] ++ rest) :=
    nextNot_cons.2 ⟨rfl, fun ⟨op, _, heq⟩ => by cases op <;> simp [ofText, Operator.text] at heq⟩
  have row : FindsRow rules [token (.ofText "("), l.expr, token (.ofText ")")]
      ([.text "(" i] ++ (ts ++ ([.text ")" j] ++ [])))
      [.text "(" i, e.value a.apply, .text ")" j] rest :=
    .cons (finds_token rfl (by simp [ofText])) (.cons (h.expr closing)
      (.cons (finds_token rfl (by simp [ofText])) .nil))
  have flat : Flat [.text "(" i, e.value a.apply, .text ")" j] :=
    flat_cons.2 ⟨rfl, flat_cons.2 ⟨isComposite_value a e, flat_singleton.2 rfl⟩⟩
  have choice : Comes (fun n => (Mapper.select [1]).apply (call (quiet rules) n)
      (concat [.text "(" i, e.value a.apply, .text ")" j]).components) (e.value a.apply) := by
    rw [concat_of_flat flat, components_tupleOf flat]
    exact comes_pure _
  have inner := finds_map (p := enclosed l.expr) (finds_sequence row) rfl choice
  rw [unwrap_of_isComposite (isComposite_value a e), List.append_nil] at inner
  rw [l.atom]
  refine finds_tail (misses_satisfy ?_) (finds_head inner)
  rintro t ⟨⟩
  exact ⟨rfl, b, hb, noNumber⟩

end

/-! ## Formulas of all levels -/

/-- **What is shown of a formula at a level**: it is read there, and may begin a chain if there are
chains. -/
structure Fits (k : Nat) (e : Formula) (ts : List (Value P)) : Prop where
  reads : l.Reads k e ts
  begins : k < 2 → l.Begins k e ts

variable {l : Levels a} {j k : Nat} {e : Formula} {ts : List (Value P)}

/-- What fits above fits below. -/
theorem Fits.lower (h : l.Fits k e ts) (hjk : j ≤ k) (hk : k ≤ 2) : l.Fits j e ts := by
  induction hjk with
  | refl => exact h
  | @step k _ ih =>
    have begins : l.Begins k e ts := h.reads.begins
    exact ih ⟨begins.reads (by omega), fun _ => begins⟩ (by omega)

theorem Reads.fits (h : l.Reads 2 e ts) : l.Fits 2 e ts := ⟨h, fun hk => by omega⟩

/-- **However a formula is written, it fits its level.** -/
theorem fits_written {least : Nat} (h : e.Written least ts) : l.Fits (min least 2) e ts := by
  induction h with
  | number => exact (reads_number _ _).fits.lower (Nat.min_le_right _ _) (Nat.le_refl 2)
  | @binary least op _ _ _ _ j h _ _ ihl ihr =>
    have hop : op.level < 2 := op.level_lt
    rw [Nat.min_eq_left (by omega)] at ihl ihr ⊢
    have begins := (ihl.begins hop).binary ihr.reads j
    exact Fits.lower ⟨begins.reads hop, fun _ => begins⟩ h (by omega)
  | parentheses _ ih =>
    exact ih.reads.parentheses.fits.lower (Nat.min_le_right _ _) (Nat.le_refl 2)

end Levels

/-! ## Written formulas -/

/-- **A written formula comes to its value.**  However many parentheses it is written with, parsing
all of its tokens returns its value; in front of tokens that do not go on with an operator the same
value is found, and the cursor is right behind the formula. -/
theorem Recursive.comes_to_value (g : Recursive a) {e : Formula} {ts : List (Value P)}
    (h : e.Written 0 ts) {o : Origin} (ho : o.ordered = true) :
    Comes (fun n => g.expr.parse (quiet rules) n o ts true) (e.value a.apply) ∧
    ∀ rest, NextNot (fun t => ∃ op : Operator, t.equals (.ofText op.text) = true) rest →
      Comes (fun n => g.expr.parse (quiet rules) n o (ts ++ rest) false) (e.value a.apply) ∧
      Comes (fun n => g.expr.run (quiet rules) n (.cursor (.start o (ts ++ rest)) none))
        (.success (e.value a.apply) (.cursor (.indexed o ts.reverse rest false) none) none) := by
  obtain ⟨l, hl⟩ := g.exists_levels
  have reads : l.Reads 0 e ts := (Levels.fits_written h).reads
  rw [← hl]
  have found (rest : List (Value P)) (hends : Ends 0 rest) := reads.expr hends
  refine ⟨?_, fun rest hrest => ?_⟩
  · have whole := (found [] (nextNot_nil _)).parse ho true fun _ => rfl
    rwa [List.append_nil] at whole
  · have hends : Ends 0 rest := fun t ht =>
      ⟨(hrest t ht).1, fun ⟨op, _, heq⟩ => (hrest t ht).2 ⟨op, heq⟩⟩
    refine ⟨(found rest hends).parse ho false nofun, ?_⟩
    have run : Comes (fun n => l.expr.run (quiet rules) n (spot o [] (ts ++ rest)))
        (.success (e.value a.apply) (spot o (ts.reverse ++ []) rest) none) :=
      (found rest hends).comes ho
    rwa [List.append_nil] at run

end

/-! ## Whole numbers -/

section

open ParserAlgebra.Parser

/-- What an operator does with whole numbers. -/
def Operator.compute : Operator → Int → Int → Int
  | .times => (· * ·)
  | .plus => (· + ·)
  | .minus => (· - ·)

/-- The function of that kind. -/
def Operator.primitive : Operator → ValueFunction
  | .times => .mul
  | .plus => .add
  | .minus => .sub

/-- **Whole numbers**, with functions that refuse anything else. -/
def wholeNumbers (rules : String → Option (Value Catalogue)) : Functions Catalogue rules where
  isNumber := .action (.primitive (.onValues .isInt))
  function op := .ofAction (.primitive (.onValues op.primitive))
  apply
    | op, .int m _, .int n _ => .ofInt (op.compute m n)
    | _, _, _ => .null
  values := {x | ∃ i k, x = .int i k}
  int_mem i k := ⟨i, k, rfl⟩
  apply_mem := by
    rintro op _ ⟨m, _, rfl⟩ _ ⟨n, _, rfl⟩
    exact ⟨_, _, rfl⟩
  isComposite_of_mem := by
    rintro _ ⟨i, k, rfl⟩
    rfl
  tests t _ := by
    cases t with
    | int i k => exact ⟨.bool true, ⟨1, rfl⟩, fun _ => ⟨i, k, rfl⟩, fun _ => rfl⟩
    | _ => exact ⟨.bool false, ⟨1, rfl⟩, nofun, nofun⟩
  returns op := by
    refine ⟨_, _, rfl, ?_⟩
    rintro _ ⟨m, _, rfl⟩ _ ⟨n, _, rfl⟩
    cases op <;> exact (comes_action (comes_pure _)).returns

/-- The rule for expressions. -/
abbrev expression : Parser Catalogue := rule "expr" (.word "expr") none

/-- Eight less two, less three times one. -/
def difference : Formula :=
  .binary .minus (.binary .minus (.number 8 none) (.number 2 none))
    (.binary .times (.number 3 none) (.number 1 none))

/-- `8 - 2 - 3 * (1)`. -/
abbrev differenceTokens : List (Value Catalogue) :=
  [.int 8 none, .ofText "-", .int 2 none, .ofText "-", .int 3 none, .ofText "*", .ofText "(",
    .int 1 none, .ofText ")"]

theorem written_difference : difference.Written 0 differenceTokens := by
  have level : 0 ≤ Operator.minus.level := Nat.le_refl 0
  have first : (Formula.binary .minus (.number 8 none) (.number 2 none)).Written 0
      [.int 8 none, .ofText "-", (.int 2 none : Value Catalogue)] :=
    Formula.Written.binary level .number .number
  have one : (Formula.number 1 none).Written 2
      [.ofText "(", .int 1 none, (.ofText ")" : Value Catalogue)] :=
    Formula.Written.parentheses .number
  have second : (Formula.binary .times (.number 3 none) (.number 1 none)).Written 1
      [.int 3 none, .ofText "*", .ofText "(", .int 1 none, (.ofText ")" : Value Catalogue)] :=
    Formula.Written.binary (Nat.le_refl Operator.times.level) .number one
  exact Formula.Written.binary level first second

/-- The formula comes to three, also in front of a parenthesis that was never opened. -/
theorem difference_comes_to_value :
    ∃ sum, grammar (.action (.primitive (.onValues .isInt)))
      (fun op => .ofAction (.primitive (.onValues op.primitive))) expression = .ok sum ∧
    let rules : String → Option (Value Catalogue) := fun _ => some (.ofParser sum)
    let o : Origin := ⟨some 1, true⟩
    difference.Written 0 differenceTokens ∧ o.ordered = true ∧
    NextNot (fun t => ∃ op : Operator, t.equals (.ofText op.text) = true)
      [(.ofText ")" : Value Catalogue)] ∧
    Comes (fun n => expression.parse (quiet rules) n o differenceTokens true) (.ofInt 3) ∧
    Comes (fun n => expression.run (quiet rules) n
        (.cursor (.start o (differenceTokens ++ [.ofText ")"])) none))
      (.success (.ofInt 3)
        (.cursor (.indexed o differenceTokens.reverse [.ofText ")"] false) none) none) := by
  obtain ⟨sum, hsum⟩ : ∃ sum, grammar (.action (.primitive (.onValues .isInt)))
      (fun op => .ofAction (.primitive (.onValues op.primitive))) expression = .ok sum :=
    exists_grammar _ _ rfl rfl
  refine ⟨sum, hsum, ?_⟩
  intro rules o
  let g : Recursive (wholeNumbers rules) :=
    { expr := expression, target := _, sum, body_expr := rfl, delegates := .rule rfl
      grammar_eq := hsum }
  have hend : NextNot (fun t => ∃ op : Operator, t.equals (.ofText op.text) = true)
      [(.ofText ")" : Value Catalogue)] :=
    nextNot_cons.2 ⟨rfl, fun ⟨op, heq⟩ => by
      cases op <;> simp [Value.ofText, Operator.text] at heq⟩
  obtain ⟨whole, front⟩ := g.comes_to_value written_difference (o := o) rfl
  exact ⟨written_difference, rfl, hend, whole, (front _ hend).2⟩

end

end Arithmetic

end ParserAlgebra
