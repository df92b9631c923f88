import ParserAlgebra.Catalogue.Readers
import ParserAlgebra.Proofs.Finds.General
import ParserAlgebra.Proofs.Finds.Positions

/-!
# Proofs/Nesting — a recursive rule accepts exactly the nested parentheses

    nested ::= "(" nested? ")"                 ()  ↦ 1        (())  ↦ 2        ((()))  ↦ 3

The rule calls itself inside an option.  Where the parentheses inside are not closed, the option
gives back what was read there and matches with nothing instead, and then a closing parenthesis has
to stand where an opening one does.  So this recovery never helps, and no part of an unbalanced text
is accepted.

## What the induction is on

That nested parentheses are accepted is shown by induction on how deep they are.  That nothing else
is, by induction on the text: behind an opening parenthesis the rule is run on what is left of it.
-/

namespace ParserAlgebra

open ParserAlgebra.Parser ParserAlgebra.Value

/-! ## Nested parentheses -/

/-- **As many opening parentheses as closing ones** behind them. -/
def nest (n : Nat) : List Char := List.replicate n '(' ++ List.replicate n ')'

/-- One more pair is put around the others. -/
theorem nest_succ (n : Nat) : nest (n + 1) = '(' :: (nest n ++ [')']) := by
  rw [nest, nest, List.replicate_succ, List.replicate_succ', List.cons_append, List.append_assoc]

@[simp] theorem length_nest (n : Nat) : (nest n).length = 2 * n := by
  simp only [nest, List.length_append, List.length_replicate]
  omega

section

variable {P : Type} [Primitive P]

/-- **What the rule stands for**: parentheses around the rule itself, or around nothing, and a
function of what is inside. -/
def parentheses (depth : Action P) (nested : Parser P) : Except (Error P) (Parser P) := do
  let opening ← (token (.ofText "(")).skip
  let closing ← (token (.ofText ")")).skip
  (← sequence [opening, nested.optional, closing]).map (.ofCallable (.action depth))

/-- The same parentheses, before their depth is counted. -/
abbrev parenthesized (nested : Parser P) : Parser P :=
  sequenced [(token (.ofText "(")).skipped, nested.optional, (token (.ofText ")")).skipped]

/-- The rule can always be written that way. -/
theorem parentheses_eq (depth : Action P) (nested : Parser P) :
    parentheses depth nested =
      .ok ((parenthesized nested).mapped (.total (.action depth) (some (.ofInt 1)))) := rfl

/-- **A recursive rule for nested parentheses**, counting one more for each pair. -/
structure Nested (rules : String → Option (Value P)) where
  rule : Parser P
  target : Value P
  body : Parser P
  depth : Action P
  body_rule : rule.body = .raw target
  delegates : Delegates rules target body
  parentheses_eq_ok : parentheses depth rule = .ok body
  name_isText : rule.name.isText = true
  outer : ∀ n : Nat, Returns rules (.action depth) [.present (.ofInt n) none] (.ok (.ofInt (1 + n)))
  innermost : Returns rules (.action depth) [.absent] (.ok (.ofInt 1))

namespace Nested

variable {rules : String → Option (Value P)} (g : Nested rules)

theorem body_eq : g.body.body =
    .map (parenthesized g.rule) (.total (.action g.depth) (some (.ofInt 1))) := by
  have same := g.parentheses_eq_ok.symm.trans (parentheses_eq g.depth g.rule)
  rw [Except.ok.inj same]
  rfl

variable {g}

theorem misses_rule {ts : List (Value P)} (h : Misses rules (parenthesized g.rule).body ts) :
    Misses rules g.rule.body ts := by
  rw [g.body_rule]
  refine misses_raw g.delegates ?_
  rw [g.body_eq]
  exact misses_map h

/-! ## One pair -/

/-- **A pair of parentheses is found** around what is found inside. -/
theorem finds_pair_around {ts : List (Value P)} {inner : Value P} {n : Int} {behind : List Char}
    (h : Finds rules g.rule.optional.body ts inner ((')' :: behind).map char))
    (hi : inner.isComposite = false)
    (hd : Returns rules (.action g.depth) [inner] (.ok (.ofInt n))) :
    Finds rules g.rule.body ([char '('] ++ (ts ++ [char ')'])) (.ofInt n) (behind.map char) := by
  have row : FindsRow rules [(token (.ofText "(")).skipped, g.rule.optional,
      (token (.ofText ")")).skipped] ([char '('] ++ (ts ++ ([char ')'] ++ [])))
      [.composite [] none, inner, .composite [] none] (behind.map char) := by
    refine .cons (finds_skipped (finds_tokenChar '(')) (.cons ?_ (.cons ?_ .nil))
    · exact h
    · exact finds_skipped (finds_tokenChar ')')
  have value : concat [.composite [] none, inner, .composite [] none] = inner := by
    simp [concat, components_of_isComposite hi, unwrap_of_isComposite hi]
  have found := finds_sequence row
  rw [value] at found
  rw [← components_of_isComposite hi] at hd
  rw [g.body_rule]
  refine finds_raw g.delegates ?_
  rw [g.body_eq]
  exact finds_map (p := parenthesized g.rule) (m := .total (.action g.depth) _) found rfl hd.comes

/-- Without an opening parenthesis there is no match. -/
theorem misses_unopened {text : List Char} (h : Outside ['('] text) :
    Misses rules g.rule.body (text.map char) :=
  misses_rule (misses_sequence (misses_map (misses_tokenChar '(' h)))

/-- **Without a closing parenthesis there is none either**, whatever was found inside. -/
theorem misses_unclosed {ts : List (Value P)} {inner : Value P} {behind : List Char}
    (h : Finds rules g.rule.optional.body ts inner (behind.map char)) (hb : Outside [')'] behind) :
    Misses rules g.rule.body ([char '('] ++ ts ++ behind.map char) := by
  have row : FindsRow rules [(token (.ofText "(")).skipped, g.rule.optional]
      ([char '('] ++ (ts ++ [])) [.composite [] none, inner] (behind.map char) := by
    refine .cons (finds_skipped (finds_tokenChar '(')) (.cons ?_ .nil)
    exact h
  rw [List.append_nil] at row
  exact misses_rule (misses_row row (misses_map (misses_tokenChar ')' hb)))

/-! ## All pairs -/

/-- **Nested parentheses are accepted**, and counted. -/
theorem finds_nest (n : Nat) (behind : List Char) :
    Finds rules g.rule.body ((nest (n + 1)).map char) (.ofInt ((n + 1 : Nat) : Int))
      (behind.map char) := by
  induction n generalizing behind with
  | zero =>
    have inside : Finds rules g.rule.optional.body [] .absent ((')' :: behind).map char) :=
      finds_absent (misses_unopened (outside_cons.2 (by decide)))
    exact finds_pair_around inside rfl g.innermost
  | succ n ih =>
    have inside := finds_pair_around (finds_optional (ih (')' :: behind))) rfl (g.outer (n + 1))
    rw [nest_succ]
    have count : (1 : Int) + ((n + 1 : Nat) : Int) = ((n + 1 + 1 : Nat) : Int) := by omega
    rw [count] at inside
    simpa using inside

/-- What is found behind an opening parenthesis: nested ones, or nothing. -/
theorem finds_inside {text : List Char}
    (h : (∀ n, 1 ≤ n → ¬nest n <+: text) → Misses rules g.rule.body (text.map char)) :
    ∃ n behind inner, text = nest n ++ behind ∧
      Finds rules g.rule.optional.body ((nest n).map char) inner (behind.map char) := by
  by_cases hn : ∃ n, 1 ≤ n ∧ nest n <+: text
  · obtain ⟨n, hpos, behind, rfl⟩ := hn
    obtain ⟨n, rfl⟩ : ∃ m, n = m + 1 := ⟨n - 1, by omega⟩
    exact ⟨n + 1, behind, _, rfl, finds_optional (finds_nest n behind)⟩
  · refine ⟨0, text, .absent, rfl, finds_absent (h fun n hpos hprefix => ?_)⟩
    exact hn ⟨n, hpos, hprefix⟩

/-- **Nothing else is accepted.** -/
theorem misses_of_not_nest {text : List Char} (h : ∀ n, 1 ≤ n → ¬nest n <+: text) :
    Misses rules g.rule.body (text.map char) := by
  induction text with
  | nil => exact misses_unopened (outside_nil _)
  | cons c text ih =>
    by_cases hc : c = '('
    · subst hc
      obtain ⟨n, behind, inner, rfl, inside⟩ := finds_inside ih
      -- a closing parenthesis here would close one pair more
      have unclosed : Outside [')'] behind := by
        rintro d hd hmem
        obtain rfl := List.mem_singleton.1 hmem
        obtain ⟨rest, rfl⟩ := List.head?_eq_some_iff.1 hd
        refine h (n + 1) (Nat.le_add_left 1 n) ⟨rest, ?_⟩
        rw [nest_succ]
        simp
      simpa using misses_unclosed inside unclosed
    · exact misses_unopened (outside_cons.2 (by simpa using hc))

/-! ## Whole texts -/

section

variable {o : Origin} {s : String} {v : Value P} {i j : Nat}

/-- **A parse counts nested parentheses**, if they are all of the text. -/
theorem comes_nest (ho : o.ordered = true) {n : Nat} (hn : 1 ≤ n) (hs : s.toList = nest n) :
    Comes (fun k => g.rule.parse (quiet rules) k o (characters s) true) (.ofInt n) := by
  obtain ⟨n, rfl⟩ : ∃ m, n = m + 1 := ⟨n - 1, by omega⟩
  have found : Finds rules g.rule.body ((nest (n + 1)).map char) _ [] := finds_nest n []
  have whole := found.parse ho true fun _ => rfl
  rwa [List.append_nil, ← hs] at whole

/-- **Every other text is reported**, whether it goes on behind nested parentheses or does not begin
with any. -/
theorem raises_of_ne_nest (ho : o.ordered = true) (hs : ∀ n, 1 ≤ n → s.toList ≠ nest n) :
    ∃ r, Raises (fun k => g.rule.parse (quiet rules) k o (characters s) true) (.parse r none) := by
  by_cases hn : ∃ n, 1 ≤ n ∧ nest n <+: s.toList
  · obtain ⟨n, hpos, behind, htext⟩ := hn
    have more : behind.map char ≠ ([] : List (Value P)) := by
      rintro hnil
      obtain rfl := List.map_eq_nil_iff.1 hnil
      exact hs n hpos (by rw [← htext, List.append_nil])
    obtain ⟨n, rfl⟩ : ∃ m, n = m + 1 := ⟨n - 1, by omega⟩
    have found : Finds rules g.rule.body ((nest (n + 1)).map char) _ (behind.map char) :=
      finds_nest n behind
    have left := found.parse_leftover ho more
    rw [← List.map_append, htext] at left
    exact ⟨_, left⟩
  · have missed : Misses rules g.rule.body (characters s) :=
      misses_of_not_nest fun n hpos hprefix => hn ⟨n, hpos, hprefix⟩
    exact ⟨_, missed.parse ho g.name_isText true⟩

theorem comes_iff (ho : o.ordered = true) :
    Comes (fun k => g.rule.parse (quiet rules) k o (characters s) true) v ↔
      ∃ n : Nat, 1 ≤ n ∧ s.toList = nest n ∧ v = .ofInt n := by
  constructor
  · intro hv
    by_cases hn : ∃ n, 1 ≤ n ∧ s.toList = nest n
    · obtain ⟨n, hpos, hs⟩ := hn
      exact ⟨n, hpos, hs, (comes_nest ho hpos hs).unique hv⟩
    · obtain ⟨r, raised⟩ := raises_of_ne_nest (g := g) ho fun n hpos hs => hn ⟨n, hpos, hs⟩
      cases raised.unique (ends_ok_iff.2 hv)
  · rintro ⟨n, hpos, hs, rfl⟩
    exact comes_nest ho hpos hs

/-! ## Positions in a text -/

theorem matchesAt_nest (ho : o.ordered = true) (hi : i ≤ s.toList.length) {n : Nat} (hn : 1 ≤ n)
    (hs : nest n <+: s.toList.drop i) :
    MatchesAt rules g.rule o (characters s) i (.ofInt n) (i + 2 * n) := by
  obtain ⟨behind, hbehind⟩ := hs
  obtain ⟨n, rfl⟩ : ∃ m, n = m + 1 := ⟨n - 1, by omega⟩
  have found : Finds rules g.rule.body ((nest (n + 1)).map char) _ (behind.map char) :=
    finds_nest n behind
  have split : (characters s : List (Value P)).drop i =
      (nest (n + 1)).map char ++ behind.map char := by
    rw [characters, ← List.map_drop, ← hbehind, List.map_append]
  have matched := found.matchesAt ho (by simpa [characters] using hi) split
  rwa [List.length_map, length_nest] at matched

theorem failsAt_of_not_nest (ho : o.ordered = true) (hi : i ≤ s.toList.length)
    (hs : ∀ n, 1 ≤ n → ¬nest n <+: s.toList.drop i) :
    FailsAt rules g.rule o (characters s) i := by
  have missed : Misses rules g.rule.body ((s.toList.drop i).map char) := misses_of_not_nest hs
  rw [List.map_drop] at missed
  exact missed.failsAt ho (by simpa [characters] using hi)

/-- Nested parentheses begin there, or else there is no match. -/
theorem exists_nest_or_failsAt (ho : o.ordered = true) (hi : i ≤ s.toList.length) :
    (∃ n, 1 ≤ n ∧ nest n <+: s.toList.drop i) ∨ FailsAt rules g.rule o (characters s) i := by
  by_cases hn : ∃ n, 1 ≤ n ∧ nest n <+: s.toList.drop i
  · exact .inl hn
  · exact .inr (failsAt_of_not_nest ho hi fun n hpos hs => hn ⟨n, hpos, hs⟩)

theorem matchesAt_iff (ho : o.ordered = true) (hi : i ≤ s.toList.length) :
    MatchesAt rules g.rule o (characters s) i v j ↔
      ∃ n : Nat, 1 ≤ n ∧ nest n <+: s.toList.drop i ∧ v = .ofInt n ∧ j = i + 2 * n := by
  constructor
  · intro hv
    obtain ⟨n, hpos, hs⟩ | fails := exists_nest_or_failsAt (g := g) ho hi
    · obtain ⟨rfl, rfl⟩ := (matchesAt_nest ho hi hpos hs).unique hv
      exact ⟨n, hpos, hs, rfl, rfl⟩
    · exact absurd fails hv.not_failsAt
  · rintro ⟨n, hpos, hs, rfl, rfl⟩
    exact matchesAt_nest ho hi hpos hs

theorem failsAt_iff (ho : o.ordered = true) (hi : i ≤ s.toList.length) :
    FailsAt rules g.rule o (characters s) i ↔ ∀ n, 1 ≤ n → ¬nest n <+: s.toList.drop i :=
  ⟨fun fails _ hpos hs => (matchesAt_nest ho hi hpos hs).not_failsAt fails,
    failsAt_of_not_nest ho hi⟩

end

/-- **The rule accepts exactly the nested parentheses.**  A parse returns how deep they are, if they
are all of the text, and raises a parse error for every other text.  Run at any position, the rule
matches or fails; it matches exactly the nested parentheses that the rest of the text begins with,
and consumes two characters for each pair. -/
theorem accepts_nested (g : Nested rules) {o : Origin} (ho : o.ordered = true) (s : String) :
    (∀ v, Comes (fun k => g.rule.parse (quiet rules) k o (characters s) true) v ↔
      ∃ n : Nat, 1 ≤ n ∧ s.toList = nest n ∧ v = .ofInt n) ∧
    ((∀ n, 1 ≤ n → s.toList ≠ nest n) → ∃ r,
      Raises (fun k => g.rule.parse (quiet rules) k o (characters s) true) (.parse r none)) ∧
    ∀ i ≤ s.toList.length,
      ((∃ v j, MatchesAt rules g.rule o (characters s) i v j) ∨
        FailsAt rules g.rule o (characters s) i) ∧
      (∀ v j, MatchesAt rules g.rule o (characters s) i v j ↔
        ∃ n : Nat, 1 ≤ n ∧ nest n <+: s.toList.drop i ∧ v = .ofInt n ∧ j = i + 2 * n) ∧
      (FailsAt rules g.rule o (characters s) i ↔ ∀ n, 1 ≤ n → ¬nest n <+: s.toList.drop i) := by
  refine ⟨fun v => comes_iff ho, raises_of_ne_nest ho, fun i hi => ⟨?_, ?_, failsAt_iff ho hi⟩⟩
  · refine (exists_nest_or_failsAt ho hi).imp_left fun ⟨n, hpos, hs⟩ => ?_
    exact ⟨_, _, matchesAt_nest ho hi hpos hs⟩
  · exact fun v j => matchesAt_iff ho hi

end Nested

end

/-- With its name bound to what it stands for, the rule counts the three pairs of `((()))` and
reports `(()`; in `x(())(` it matches at position 1 and fails at position 0. -/
theorem three_pairs_accepted :
    ∃ body, parentheses (.primitive (.onValues .depth))
      (Parser.rule "nested" (.word "nested") none : Parser Catalogue) = .ok body ∧
    let rules : String → Option (Value Catalogue) := fun _ => some (.ofParser body)
    let rule : Parser Catalogue := .rule "nested" (.word "nested") none
    let o : Origin := ⟨none, true⟩
    o.ordered = true ∧
    Comes (fun k => rule.parse (quiet rules) k o (characters "((()))") true) (.ofInt 3) ∧
    (∃ r, Raises (fun k => rule.parse (quiet rules) k o (characters "(()") true)
      (.parse r none)) ∧
    MatchesAt rules rule o (characters "x(())(") 1 (.ofInt 2) 5 ∧
    FailsAt rules rule o (characters "x(())(") 0 := by
  refine ⟨_, parentheses_eq _ _, ?_⟩
  intro rules rule o
  have outer (n : Nat) : Returns rules (.action (.primitive (.onValues .depth)))
      [.present (.ofInt n) none] (.ok (.ofInt (1 + n))) := by
    have answers : (Primitive.call (Catalogue.onValues .depth) [.present (.ofInt n) none] :
        Conduct Catalogue) = .answers (.ofInt (1 + n)) := by
      rw [Int.add_comm]
      rfl
    refine (comes_action ?_).returns
    simp only [Action.apply, answers]
    exact comes_pure _
  let g : Nested rules :=
    { rule, target := _, body := _, depth := .primitive (.onValues .depth), body_rule := rfl
      delegates := .rule rfl, parentheses_eq_ok := parentheses_eq _ _, name_isText := rfl, outer
      innermost := ⟨1, rfl⟩ }
  obtain ⟨whole, -, -⟩ := g.accepts_nested (o := o) rfl "((()))"
  obtain ⟨-, reported, -⟩ := g.accepts_nested (o := o) rfl "(()"
  obtain ⟨-, -, positions⟩ := g.accepts_nested (o := o) rfl "x(())("
  obtain ⟨-, -, fails⟩ := positions 0 (Nat.zero_le _)
  obtain ⟨-, found, -⟩ := positions 1 (by decide)
  have two : nest 2 <+: "x(())(".toList.drop 1 := by decide
  have three : "((()))".toList = nest 3 := by decide
  have counted := (whole (.ofInt 3)).2 ⟨3, by decide, three, rfl⟩
  have inside := (found (.ofInt 2) 5).2 ⟨2, by decide, two, rfl, rfl⟩
  refine ⟨rfl, counted, reported ?_, inside, fails.2 ?_⟩
  · intro n hn hs
    have size := congrArg List.length hs
    rw [length_nest] at size
    change 3 = 2 * n at size
    omega
  · intro n hn hs
    obtain ⟨n, rfl⟩ : ∃ m, n = m + 1 := ⟨n - 1, by omega⟩
    rw [nest_succ] at hs
    have first := List.cons_prefix_cons.1 hs
    exact absurd first.1 (by decide)

end ParserAlgebra
