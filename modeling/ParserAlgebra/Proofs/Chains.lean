import ParserAlgebra.Proofs.Answers
import ParserAlgebra.Proofs.Arithmetic

/-!
# Proofs/Chains — chains from the left and from the right

    x₀  o₁ x₁  o₂ x₂  …  oₙ xₙ        pairs of an operator and an operand, behind x₀
    x₀ o₁  x₁ o₂  …  xₙ₋₁ oₙ  xₙ      pairs of an operand and an operator, in front of xₙ

Both chains read operands with operators in between, but they cut them into pairs in different
places.  The pairs of the one are the pairs of the other shifted by one (`Streak.shift`): where the
streak of the first stops, the last operand has been read twice by the second, once in vain for the
pair that it does not begin.

So both stop at the same cursor, unless there is an operator behind the last operand.  The chain
from the left gives it back.  The chain from the right takes it for the end of one more pair, and
then there is no operand left to end with.
-/

namespace ParserAlgebra

variable {P : Type} [Primitive P] {rules : String → Option (Value P)}

open ParserAlgebra.Parser Value

/-! ## Operators applied -/

/-- Operators with their operands, applied from the left: `… o₂ (o₁ x₀ x₁) x₂ …`. -/
def chainedLeft (apply : Value P → Value P → Value P → Value P) (x : Value P)
    (steps : List (Value P × Value P)) : Value P :=
  steps.foldl (fun acc step => apply step.1 acc step.2) x

/-- The same from the right: `o₁ x₀ (o₂ x₁ (… xₙ))`. -/
def chainedRight (apply : Value P → Value P → Value P → Value P) :
    Value P → List (Value P × Value P) → Value P
  | x, [] => x
  | x, (o, y) :: steps => apply o x (chainedRight apply y steps)

/-- **Operators with what they are applied to**: functions of two operands, which answer for all
operands and answer with an operand.  No operand is a composite. -/
structure Operates (rules : String → Option (Value P)) (operators operands : Set (Value P))
    (apply : Value P → Value P → Value P → Value P) : Prop where
  flat : ∀ x ∈ operands, x.isComposite = false
  mem : ∀ o ∈ operators, ∀ x ∈ operands, ∀ y ∈ operands, apply o x y ∈ operands
  returns : ∀ o ∈ operators, ∃ f i, o = .callable f i ∧ ∀ x ∈ operands, ∀ y ∈ operands,
    Returns rules f [x, y] (.ok (apply o x y))

section

variable {operators operands : Set (Value P)} {apply : Value P → Value P → Value P → Value P}
  (hf : Operates rules operators operands apply) {x : Value P}

include hf

/-- An operator and an operand are a pair. -/
theorem Operates.concat_step {o y : Value P} (ho : o ∈ operators) (hy : y ∈ operands) :
    concat [o, y] = .composite [o, y] none ∧ concat [y, o] = .composite [y, o] none := by
  obtain ⟨f, i, rfl, _⟩ := hf.returns o ho
  exact ⟨concat_pair rfl (hf.flat y hy), concat_pair (hf.flat y hy) rfl⟩

/-- **Steps from the left come to operators applied from the left.** -/
theorem Operates.folds {steps : List (Value P × Value P)} (hx : x ∈ operands)
    (hs : ∀ v ∈ steps, v.1 ∈ operators ∧ v.2 ∈ operands) :
    Folds rules x (steps.map fun v => concat [v.1, v.2]) (chainedLeft apply x steps) ∧
      chainedLeft apply x steps ∈ operands := by
  induction steps generalizing x with
  | nil => exact ⟨.nil, hx⟩
  | cons v steps ih =>
    obtain ⟨⟨ho, hy⟩, hs⟩ := List.forall_mem_cons.1 hs
    obtain ⟨rest, hmem⟩ := ih (hf.mem v.1 ho x hx v.2 hy) hs
    obtain ⟨f, i, hfun, hreturns⟩ := hf.returns v.1 ho
    refine ⟨?_, hmem⟩
    rw [List.map_cons, (hf.concat_step ho hy).1, hfun]
    exact .cons (hreturns x hx v.2 hy) rest

end

section

variable {operand operator l r : Parser P} {operators operands : Set (Value P)}
  {apply : Value P → Value P → Value P → Value P} {c a e x : Value P}
  {steps : List ((Value P × Value P) × Value P)}

/-- **Pairs shifted by one.**  An operand, and behind it pairs of an operator and an operand, are
pairs of an operand and an operator, and behind them an operand `y`: whatever streak of such pairs
goes on from where `y` starts, they come in front of it. -/
theorem Streak.shift (hf : Operates rules operators operands apply)
    (hs : Streak (Pair rules operator operand) (NoPair rules operator operand) a steps e)
    (hv : ∀ v ∈ values steps, v.1 ∈ operators ∧ v.2 ∈ operands) (hx : x ∈ operands)
    (h : Matches rules operand c x a) :
    ∃ items b y, Matches rules operand b y e ∧ y ∈ operands ∧
      FoldsRight rules items y (chainedRight apply x (values steps)) ∧
      chainedRight apply x (values steps) ∈ operands ∧
      ∀ ws d, Streak (Matches rules (sequenced [operand, operator]))
          (Declines rules (sequenced [operand, operator])) b ws d →
        ∃ run, values run = items ++ values ws ∧
          Streak (Matches rules (sequenced [operand, operator]))
            (Declines rules (sequenced [operand, operator])) c run d := by
  induction hs generalizing c x with
  | nil => exact ⟨[], c, x, h, hx, .nil, hx, fun ws _ hws => ⟨ws, rfl, hws⟩⟩
  | @cons a v d steps e hpair _ ih =>
    obtain ⟨⟨ho, hy⟩, hv⟩ := List.forall_mem_cons.1 hv
    obtain ⟨b, hop, hnext⟩ := hpair
    -- the operand of this pair begins the next one of the other kind
    obtain ⟨items, b', y, hlast, hmem, hfold, hz, hrest⟩ := ih hv hy hnext
    obtain ⟨f, i, hfun, hreturns⟩ := hf.returns v.1 ho
    refine ⟨concat [x, v.1] :: items, b', y, hlast, hmem, ?_, hf.mem _ ho _ hx _ hz,
      fun ws g hws => ?_⟩
    · rw [(hf.concat_step ho hx).2, hfun]
      exact .cons hfold (hreturns x hx _ hz)
    · obtain ⟨run, hrun, hstreak⟩ := hrest ws g hws
      exact ⟨_, by rw [values_cons, hrun]; rfl, .cons (h.pair hop) hstreak⟩

/-- **What both chains make of an operand `x`** at `c` that ends at `a`, and of the pairs of an
operator and an operand behind it, the last of which ends at `e`.

Both pass the same operands.  If there is an operator behind the last, the chain from the right
fails. -/
structure Chained (rules : String → Option (Value P)) (operand operator l r : Parser P)
    (apply : Value P → Value P → Value P → Value P) (c x a : Value P)
    (steps : List ((Value P × Value P) × Value P)) (e : Value P) : Prop where
  maximal : Streak (Pair rules operator operand) (NoPair rules operator operand) a steps e
  unique : ∀ steps' e', Streak (Pair rules operator operand) (NoPair rules operator operand) a
    steps' e' → steps' = steps ∧ e' = e
  left : Comes (fun n => l.run (quiet rules) n c)
    (.success (chainedLeft apply x (Streak.values steps)) e none)
  right : Declines rules operator e → Comes (fun n => r.run (quiet rules) n c)
    (.success (chainedRight apply x (Streak.values steps)) e none)
  trailing : ∀ o d, Matches rules operator e o d →
    Comes (fun n => r.run (quiet rules) n c) .failure

/-- Both chains take whatever streak of pairs there is behind an operand. -/
theorem Streak.chained (hl : operand.chainLeft operator = .ok l)
    (hr : operand.chainRight operator = .ok r) (hf : Operates rules operators operands apply)
    (h : Matches rules operand c x a) (hx : x ∈ operands)
    (hs : Streak (Pair rules operator operand) (NoPair rules operator operand) a steps e)
    (hv : ∀ v ∈ values steps, v.1 ∈ operators ∧ v.2 ∈ operands) :
    Chained rules operand operator l r apply c x a steps e := by
  obtain ⟨items, b, y, hlast, hy, hfold, hright, hshift⟩ := hs.shift hf hv hx h
  refine ⟨hs, fun _ _ => hs.unique_pairs, ?_, fun hno => ?_, fun o d hop => ?_⟩
  · obtain ⟨hfold, hleft⟩ := hf.folds hx hv
    rw [← unwrap_of_isComposite (hf.flat _ hleft)]
    refine comes_call (comes_chainLeft hl h hs.joined (hf.flat x hx) ?_)
    rwa [values_map]
  · obtain ⟨run, hrun, hstreak⟩ := hshift [] b (.nil (hlast.pair_declines hno))
    rw [values_nil, List.append_nil] at hrun
    rw [← unwrap_of_isComposite (hf.flat _ hright)]
    exact comes_call (comes_chainRight hr hstreak hlast (hf.flat y hy) (hrun ▸ hfold))
  · -- behind the operator there is no operand, or the streak of pairs would go on
    have hno : Declines rules operand d := by
      obtain hdeclines | ⟨o', d', hop', hno⟩ := hs.stopped
      · exact absurd hdeclines hop.not_declines
      · exact (hop.unique hop').2 ▸ hno
    obtain ⟨run, _, hstreak⟩ := hshift [_] d (.cons (hlast.pair hop) (.nil hno.pair))
    exact comes_call (comes_chainRight_failure hr hstreak hno)

end

/-- **Chains agree up to folding and trailing operators.**  On a stream that operand and operator
answer on, where an operator and an operand leave fewer tokens: without an operand both chains fail,
and with one they take the same operands, unless an operator comes behind the last of them. -/
theorem chains_agree {operand operator l r : Parser P} {c : Cursor (Value P)}
    {operators operands : Set (Value P)} {apply : Value P → Value P → Value P → Value P}
    (hl : operand.chainLeft operator = .ok l) (hr : operand.chainRight operator = .ok r)
    (hc : c.Readable) (hx : Answers rules c operand operands)
    (ho : Answers rules c operator operators) (hf : Operates rules operators operands apply)
    (ha : Advances c (Pair rules operator operand)) (i : Identity) :
    (Declines rules operand (.cursor c i) →
      Comes (fun n => l.run (quiet rules) n (.cursor c i)) .failure ∧
      Comes (fun n => r.run (quiet rules) n (.cursor c i)) .failure) ∧
    ∀ x a, Matches rules operand (.cursor c i) x a → ∃ steps e j, c.Along e ∧
      Chained rules operand operator l r apply (.cursor c i) x a steps (.cursor e j) := by
  constructor
  · intro hno
    exact ⟨comes_call (comes_chainLeft_failure hl hno),
      comes_call (comes_chainRight_failure hr (.nil hno.pair) hno)⟩
  · intro x a h
    obtain hno | ⟨x', hmem, d, k, hd, h'⟩ := hx c i hc.along
    · exact absurd hno h.not_declines
    obtain ⟨rfl, rfl⟩ := h'.unique h
    obtain ⟨steps, e, j, he, hs, hv, _⟩ := exists_streak_along (ho.pair hx) ha hd k
    exact ⟨steps, e, j, he, hs.chained hl hr hf h hmem hv⟩

/-! ## Chains of numbers -/

section

open Arithmetic

variable {c : Cursor (Value P)} (a : Functions P rules)

/-- Numbers progress on a stream of single tokens. -/
theorem progresses_number (h : ∀ t ∈ c.tokens, t.isComposite = false) :
    Progresses rules c (satisfy a.isNumber) a.values := by
  refine progresses_one.filtered rfl fun t ht => ⟨h t ht, ?_⟩
  obtain ⟨b, hb, htruth⟩ := a.tests t (h t ht)
  refine ⟨b, hb, fun hb => ?_⟩
  obtain ⟨i, k, rfl⟩ := htruth.1 hb
  exact a.int_mem i k

/-- So does an operator. -/
theorem progresses_operator (op : Operator) (h : ∀ t ∈ c.tokens, t.isComposite = false) :
    Progresses rules c (operatorParser a.function op) {a.function op} := by
  have tokens : Progresses rules c (token (.ofText op.text)) {t | t ∈ c.tokens} :=
    progresses_one.filtered rfl fun t ht => ⟨h t ht, _, returns_equals _ t, fun _ => ht⟩
  obtain ⟨f, i, hfun, _⟩ := a.returns op
  refine tokens.mapped rfl fun t _ => ⟨a.function op, comes_action (comes_pure _), ?_⟩
  rw [hfun]
  exact unwrap_of_isComposite rfl

/-- An operator operates on the values there are. -/
theorem operates_operator (op : Operator) :
    Operates rules {a.function op} a.values fun _ => a.apply op where
  flat := a.isComposite_of_mem
  mem _ _ := a.apply_mem op
  returns := by
    rintro _ rfl
    exact a.returns op

/-- A cursor on `8 - 3 - 2`. -/
abbrev threeNumbers : Cursor (Value Catalogue) :=
  .start ⟨some 1, true⟩ [.ofInt 8, .ofText "-", .ofInt 3, .ofText "-", .ofInt 2]

/-- Eight less three less two is three from the left and seven from the right. -/
theorem difference_chains_agree :
    let rules : String → Option (Value Catalogue) := fun _ => none
    let whole := wholeNumbers rules
    let number := satisfy whole.isNumber
    let minus := operatorParser whole.function .minus
    ∃ l r, number.chainLeft minus = .ok l ∧ number.chainRight minus = .ok r ∧
    threeNumbers.Readable ∧ Answers rules threeNumbers number whole.values ∧
    Answers rules threeNumbers minus {whole.function .minus} ∧
    Operates rules {whole.function .minus} whole.values (fun _ => whole.apply .minus) ∧
    Advances threeNumbers (Pair rules minus number) ∧
    ∃ e, Comes (fun n => l.run (quiet rules) n (.cursor threeNumbers none))
      (.success (.ofInt 3) e none) ∧
    Comes (fun n => r.run (quiet rules) n (.cursor threeNumbers none))
      (.success (.ofInt 7) e none) := by
  intro rules whole number minus
  refine ⟨_, _, rfl, rfl, ?_⟩
  have flat : ∀ t ∈ threeNumbers.tokens, t.isComposite = false := by decide
  have readable : threeNumbers.Readable := rfl
  have numbers : Progresses rules threeNumbers number whole.values := progresses_number whole flat
  have signs : Progresses rules threeNumbers minus _ := progresses_operator whole .minus flat
  have operates := operates_operator whole .minus
  have advances : Advances threeNumbers (Pair rules minus number) := signs.pair numbers
  refine ⟨readable, numbers.answers, signs.answers, operates, advances, ?_⟩
  have chains := chains_agree rfl rfl readable numbers.answers signs.answers operates advances none
  have read (i : Int) (passed rest : List (Value Catalogue)) :
      Matches rules number (spot ⟨some 1, true⟩ passed (.ofInt i :: rest)) (.ofInt i)
        (spot ⟨some 1, true⟩ (.ofInt i :: passed) rest) :=
    matches_of_body (finds_satisfy rfl ⟨1, rfl⟩ rfl _ passed rfl)
  have sign (passed rest : List (Value Catalogue)) :
      Matches rules minus (spot ⟨some 1, true⟩ passed (.ofText "-" :: rest))
        (whole.function .minus) (spot ⟨some 1, true⟩ (.ofText "-" :: passed) rest) :=
    matches_of_body (finds_operator (a := whole) .minus (.ofText "-") rest _ passed rfl)
  have ends (passed : List (Value Catalogue)) :
      Declines rules minus (spot ⟨some 1, true⟩ passed []) :=
    declines_of_body (misses_operator (a := whole) (nextNot_nil _) _ passed rfl)
  have pairs : Streak (Pair rules minus number) (NoPair rules minus number) _
      [((_, _), _), ((_, _), _)] _ :=
    .cons ⟨_, sign [.ofInt 8] _, read 3 _ _⟩
      (.cons ⟨_, sign _ _, read 2 _ []⟩ (.nil (.inl (ends _))))
  obtain ⟨steps, e, j, _, h⟩ := chains.2 _ _ (read 8 [] _)
  obtain ⟨rfl, he⟩ := h.unique _ _ pairs
  rw [← he] at h
  exact ⟨_, h.left, h.right (ends _)⟩

end

end ParserAlgebra
