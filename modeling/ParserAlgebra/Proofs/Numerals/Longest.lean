import Mathlib.Data.Nat.Digits.Defs
import ParserAlgebra.Proofs.Finds.Positions
import ParserAlgebra.Proofs.Numerals

/-!
# Proofs/Numerals/Longest — which whole number stands at a position of a text

    at i:    "-" digits …        digits …          "-" no digit …        no digit …
             −n, behind them     n, behind them    no match              no match

The digits that are read are all that stand there, whether or not a shorter run of them would do.
The sign counts if digits come behind it; without them it is given back, and there is no match.  So
the text from a position on says by itself what is read there, and no grammar has to be run to know.
More digits than can be made a number are read as well, and raise an error.
-/

namespace ParserAlgebra

open ParserAlgebra.Parser ParserAlgebra.Value

/-! ## The number that a text begins with -/

/-- How many signs a text begins with: one or none. -/
def signLength (text : List Char) : Nat := if text.head? = some '-' then 1 else 0

/-- **The digits behind the sign**: as many as stand there. -/
def leadingDigits (text : List Char) : List Char :=
  (text.drop (signLength text)).takeWhile Char.isDigit

/-- **The number that some digits write** in base ten. -/
def digitsValue (digits : List Char) : Nat :=
  Nat.ofDigits 10 (digits.reverse.map fun c => c.toNat - '0'.toNat)

/-- **The number that a text begins with**, if it has leading digits. -/
def leadingInteger (text : List Char) : Int :=
  if signLength text = 1 then -(digitsValue (leadingDigits text) : Int)
  else digitsValue (leadingDigits text)

/-- Reading digits one by one adds up to their value. -/
theorem ofDigits_eq_digitsValue (digits : List Char) :
    Decimal.ofDigits digits = digitsValue digits := by
  rw [digitsValue, Nat.ofDigits_eq_foldr, List.foldr_map, List.foldr_reverse, Decimal.ofDigits]
  congr 1
  funext n c
  rw [Nat.cast_id, Nat.mul_comm, Nat.add_comm]

/-- A text is a sign and the rest, or begins with no sign. -/
theorem exists_sign_or_outside (text : List Char) :
    (∃ rest, text = '-' :: rest) ∨ Outside ['-'] text := by
  cases text with
  | nil => exact .inr (outside_nil _)
  | cons c rest =>
    by_cases hc : c = '-'
    · exact .inl ⟨rest, by rw [hc]⟩
    · exact .inr (outside_cons.2 (by simpa using hc))

theorem signLength_of_outside {text : List Char} (h : Outside ['-'] text) :
    signLength text = 0 := by
  rw [signLength, if_neg]
  exact fun hsign => h '-' hsign (List.mem_singleton_self _)

theorem leadingDigits_sign (rest : List Char) :
    leadingDigits ('-' :: rest) = rest.takeWhile Char.isDigit := rfl

theorem leadingDigits_of_outside {text : List Char} (h : Outside ['-'] text) :
    leadingDigits text = text.takeWhile Char.isDigit := by
  rw [leadingDigits, signLength_of_outside h, List.drop_zero]

/-- Behind all digits that stand there is no digit. -/
theorem outside_dropWhile_isDigit (text : List Char) :
    Outside CharSet.digits (text.dropWhile Char.isDigit) := by
  intro c hc hmem
  have hnot := List.head?_dropWhile_not Char.isDigit text
  rw [Option.mem_def.1 hc] at hnot
  exact Bool.eq_false_iff.1 hnot (CharSet.mem_digits_iff_isDigit.1 hmem)

/-- Where no digits stand the next character is none. -/
theorem outside_of_takeWhile_isDigit {text : List Char} (h : text.takeWhile Char.isDigit = []) :
    Outside CharSet.digits text := by
  have behind := outside_dropWhile_isDigit text
  rwa [← List.takeWhile_append_dropWhile (p := Char.isDigit) (l := text), h, List.nil_append]

theorem mem_digits_of_takeWhile {text : List Char} :
    ∀ c ∈ text.takeWhile Char.isDigit, c ∈ CharSet.digits := fun c hc =>
  CharSet.mem_digits_iff_isDigit.2 (List.all_eq_true.1 List.all_takeWhile c hc)

/-! ## What is read -/

variable {P : Type} [Primitive P] {rules : String → Option (Value P)}

/-- **All digits behind the sign are read**, if there are any, and what is found tells whether there
was a sign. -/
theorem finds_leadingDigits {text : List Char} (h : leadingDigits text ≠ []) :
    ∃ read behind sign, text = read ++ behind ∧
      read.length = signLength text + (leadingDigits text).length ∧
      (sign.isTruthy = true ↔ signLength text = 1) ∧
      Finds rules (signedDigits : Parser P).body (read.map char)
        (.composite [sign, .list ((leadingDigits text).map char) none] none)
        (behind.map char) := by
  obtain ⟨rest, rfl⟩ | hno := exists_sign_or_outside text
  · rw [leadingDigits_sign] at h ⊢
    refine ⟨'-' :: rest.takeWhile Char.isDigit, rest.dropWhile Char.isDigit,
      .present (char '-') none, ?_, ?_, iff_of_true rfl rfl, ?_⟩
    · rw [List.cons_append, List.takeWhile_append_dropWhile]
    · rw [List.length_cons, Nat.add_comm]
      rfl
    · have digits : Finds rules (signedDigits : Parser P).body _ _ _ :=
        finds_signedDigits (finds_optional (finds_tokenChar '-')) rfl h
          mem_digits_of_takeWhile (outside_dropWhile_isDigit rest)
      exact digits
  · have sign : Finds rules (token (.ofText "-") : Parser P).optional.body [] .absent
        (text.map char) := finds_absent (misses_tokenChar '-' hno)
    rw [signLength_of_outside hno]
    rw [leadingDigits_of_outside hno] at h ⊢
    refine ⟨_, _, .absent, List.takeWhile_append_dropWhile.symm, (Nat.zero_add _).symm,
      iff_of_false Bool.false_ne_true Nat.zero_ne_one, ?_⟩
    rw [← List.takeWhile_append_dropWhile (p := Char.isDigit) (l := text)] at sign
    have digits : Finds rules (signedDigits : Parser P).body _ _ _ :=
      finds_signedDigits sign rfl h mem_digits_of_takeWhile (outside_dropWhile_isDigit text)
    exact digits

/-- **A sign without digits is given back**, and nothing is read. -/
theorem misses_leadingInteger {text : List Char} (h : leadingDigits text = []) :
    Misses rules (integer : Parser P).body (text.map char) := by
  have noDigits {rest : List Char} (hrest : rest.takeWhile Char.isDigit = []) :
      Misses rules (digit.repeat1 gathered : Parser P).body (rest.map char) :=
    misses_repeat1 (p := digit) (misses_charIn (outside_of_takeWhile_isDigit hrest))
  obtain ⟨rest, rfl⟩ | hno := exists_sign_or_outside text
  · rw [leadingDigits_sign] at h
    have sign : Finds rules (token (.ofText "-") : Parser P).optional.body [char '-']
        (.present (char '-') none) (rest.map char) := finds_optional (finds_tokenChar '-')
    exact misses_map (p := signedDigits) (misses_pair sign (noDigits h))
  · rw [leadingDigits_of_outside hno] at h
    have sign : Finds rules (token (.ofText "-") : Parser P).optional.body [] .absent
        (text.map char) := finds_absent (misses_tokenChar '-' hno)
    exact misses_map (p := signedDigits) (misses_pair sign (noDigits h))

section

variable {o : Origin}

omit [Primitive P] in
/-- What a text splits into from a position on is what the stream of its characters does. -/
theorem drop_characters {s : String} {i : Nat} {read behind : List Char}
    (h : s.toList.drop i = read ++ behind) :
    (characters s : List (Value P)).drop i = read.map char ++ behind.map char := by
  rw [characters, ← List.map_drop, h, List.map_append]

omit [Primitive P] in
theorem le_length_characters {s : String} {i : Nat} (hi : i ≤ s.toList.length) :
    i ≤ (characters s : List (Value P)).length := by
  simpa [characters] using hi

theorem matchesAt_leadingInteger (ho : o.ordered = true) {s : String} {i : Nat}
    (hi : i ≤ s.toList.length) (h : leadingDigits (s.toList.drop i) ≠ [])
    (hfew : (leadingDigits (s.toList.drop i)).length ≤ Action.digitLimit) :
    MatchesAt rules (integer : Parser P) o (characters s) i
      (.ofInt (leadingInteger (s.toList.drop i)))
      (i + signLength (s.toList.drop i) + (leadingDigits (s.toList.drop i)).length) := by
  obtain ⟨read, behind, sign, hsplit, hlength, hsign, digits⟩ := @finds_leadingDigits P _ rules _ h
  have found : Finds rules (integer : Parser P).body (read.map char)
      (.ofInt (leadingInteger (s.toList.drop i))) (behind.map char) := by
    refine finds_signed digits hfew ?_
    rw [ofDigits_eq_digitsValue, leadingInteger]
    simp only [hsign]
  have matched := found.matchesAt ho (le_length_characters hi) (drop_characters hsplit)
  rwa [List.length_map, hlength, ← Nat.add_assoc] at matched

/-- **Too many digits raise** an error. -/
theorem raisesAt_tooManyDigits (ho : o.ordered = true) {s : String} {i : Nat}
    (hi : i ≤ s.toList.length)
    (hmany : Action.digitLimit < (leadingDigits (s.toList.drop i)).length) :
    RaisesAt rules (integer : Parser P) o (characters s) i .tooManyDigits := by
  have some : leadingDigits (s.toList.drop i) ≠ [] := fun hnone => by
    rw [hnone] at hmany
    contradiction
  obtain ⟨read, behind, sign, hsplit, -, -, digits⟩ := @finds_leadingDigits P _ rules _ some
  refine digits.raisesAt_map ?_ rfl ho (le_length_characters hi) (drop_characters hsplit)
  refine (alike_action _ _ _).2 ?_
  simp only [Action.apply, components_composite, integerOf_char, if_neg hmany.not_ge]
  exact ends_raise_iff.2 rfl

theorem failsAt_iff_leadingDigits (ho : o.ordered = true) {s : String} {i : Nat}
    (hi : i ≤ s.toList.length) :
    FailsAt rules (integer : Parser P) o (characters s) i ↔
      leadingDigits (s.toList.drop i) = [] := by
  constructor
  · intro fails
    by_contra h
    obtain hfew | hmany := le_or_gt (leadingDigits (s.toList.drop i)).length Action.digitLimit
    · exact (matchesAt_leadingInteger ho hi h hfew).not_failsAt fails
    · exact (raisesAt_tooManyDigits ho hi hmany).not_failsAt fails
  · intro h
    have missed := @misses_leadingInteger P _ rules _ h
    rw [List.map_drop] at missed
    exact missed.failsAt ho (le_length_characters hi)

/-- A printed number in front of no digit is matched, wherever it stands. -/
theorem matchesAt_numeral (ho : o.ordered = true) {n : Int} (hn : FewDigits n)
    (before behind : String) (h : Outside CharSet.digits behind.toList) :
    MatchesAt rules (integer : Parser P) o (characters (before ++ toString n ++ behind))
      before.length (.ofInt n) (before.length + (toString n).length) := by
  have text : (characters (before ++ toString n ++ behind) : List (Value P)) =
      before.toList.map char ++ ((numeral n).map char ++ behind.toList.map char) := by
    simp [characters, numeral]
  have length (s : String) : s.length = (s.toList.map char : List (Value P)).length := by
    rw [List.length_map, String.length_toList]
  have found : Finds rules (integer : Parser P).body _ _ _ := finds_integer hn h
  rw [text, length before, length (toString n)]
  refine found.matchesAt ho ?_ ?_
  · rw [List.length_append]
    exact Nat.le_add_right _ _
  · rw [List.drop_left]

/-- A printed number is parsed back. -/
theorem comes_toString (ho : o.ordered = true) {n : Int} (hn : FewDigits n) :
    Comes (fun k => (integer : Parser P).parse (quiet rules) k o (characters (toString n)) true)
      (.ofInt n) := by
  have found : Finds rules (integer : Parser P).body ((numeral n).map char) (.ofInt n)
      (([] : List Char).map char) := finds_integer hn (outside_nil _)
  have whole := found.parse ho true fun _ => rfl
  rwa [List.map_nil, List.append_nil] at whole

/-- **An integer is the longest numeral that stands at a position.**  There is no match where no
digits stand behind the sign.  Everywhere else the sign and all of the digits are consumed, and the
value is the number that they write; only where there are too many digits to make a number of them,
an error is raised instead.  So a printed number is parsed back, and in front of no digit it is read
no further than it was printed. -/
theorem integer_reads_longest (rules : String → Option (Value P)) (ho : o.ordered = true) :
    (∀ (s : String) (i : Nat), i ≤ s.toList.length →
      let text := s.toList.drop i
      (FailsAt rules (integer : Parser P) o (characters s) i ↔ leadingDigits text = []) ∧
      (leadingDigits text ≠ [] → (leadingDigits text).length ≤ Action.digitLimit →
        MatchesAt rules (integer : Parser P) o (characters s) i (.ofInt (leadingInteger text))
          (i + signLength text + (leadingDigits text).length)) ∧
      (Action.digitLimit < (leadingDigits text).length →
        RaisesAt rules (integer : Parser P) o (characters s) i .tooManyDigits)) ∧
    (∀ n : Int, FewDigits n → Comes (fun k => (integer : Parser P).parse (quiet rules) k o
      (characters (toString n)) true) (.ofInt n)) ∧
    ∀ (n : Int) (before behind : String), FewDigits n →
      (∀ c ∈ behind.toList.head?, c.isDigit = false) →
      MatchesAt rules (integer : Parser P) o (characters (before ++ toString n ++ behind))
        before.length (.ofInt n) (before.length + (toString n).length) := by
  refine ⟨?_, fun n hn => comes_toString ho hn, ?_⟩
  · intro s i hi text
    exact ⟨failsAt_iff_leadingDigits ho hi, matchesAt_leadingInteger ho hi,
      raisesAt_tooManyDigits ho hi⟩
  · intro n before behind hn h
    refine matchesAt_numeral ho hn before behind fun c hc hmem => ?_
    exact Bool.eq_false_iff.1 (h c hc) (CharSet.mem_digits_iff_isDigit.1 hmem)

end

/-- In `x-007b` there is no integer at position 0, and at position 1 there is -7, up to the `b`.
One digit more than the limit is an error. -/
theorem seven_reads_longest :
    let o : Origin := ⟨none, true⟩
    let rules : String → Option (Value Catalogue) := fun _ => none
    let sevens : List Char := List.replicate (Action.digitLimit + 1) '7'
    o.ordered = true ∧ FailsAt rules integer o (characters "x-007b") 0 ∧
      MatchesAt rules integer o (characters "x-007b") 1 (.ofInt (-7)) 5 ∧
      MatchesAt rules integer o (characters "x-7b") 1 (.ofInt (-7)) 3 ∧
      RaisesAt rules integer o (characters (String.ofList sevens)) 0 .tooManyDigits := by
  intro o rules sevens
  obtain ⟨longest, _, printed⟩ := integer_reads_longest rules (o := o) rfl
  have value : leadingInteger ("x-007b".toList.drop 1) = -7 := by decide
  have stop : 1 + signLength ("x-007b".toList.drop 1) +
      (leadingDigits ("x-007b".toList.drop 1)).length = 5 := by decide
  have inside : 1 ≤ "x-007b".toList.length := by decide
  have text : "x" ++ toString (-7 : Int) ++ "b" = "x-7b" := by decide
  have none : leadingDigits ("x-007b".toList.drop 0) = [] := by decide
  have behind := printed (-7) "x" "b" (by decide) fun c hc => by
    cases hc
    rfl
  have missed := (longest "x-007b" 0 (Nat.zero_le _)).1.2 none
  refine ⟨rfl, missed, ?_, ?_, (longest _ 0 (Nat.zero_le _)).2.2 ?_⟩
  · rw [← value, ← stop]
    exact (longest _ 1 inside).2.1 (by decide) (by decide)
  · rw [text] at behind
    exact behind
  · have noSign : Outside ['-'] sevens := outside_cons.2 (by decide)
    have digits : sevens.takeWhile Char.isDigit = sevens := List.takeWhile_replicate ..
    rw [String.toList_ofList, List.drop_zero, leadingDigits_of_outside noSign, digits,
      List.length_replicate]
    exact Nat.lt_succ_self _

end ParserAlgebra
