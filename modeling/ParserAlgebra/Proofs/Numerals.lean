import Mathlib.Data.List.Chain
import ParserAlgebra.Catalogue.Readers
import ParserAlgebra.Proofs.Finds.General

/-!
# Proofs/Numerals — printed whole numbers are parsed back

    n₁ w₁ "," u₁ n₂ w₂ "," u₂ n₃ w₃ …           separated by commas
    n₁ w₁ n₂ w₂ n₃ w₃ …                         one behind the other

A number is printed as a sign, if it has one, and its decimal digits.  Whitespace may stand behind
each number and behind each comma, as much as one likes.  Where there are no commas something has to
tell two numbers apart: whitespace between them, or the sign of the second.

Every loop on the way takes as much as it can, so each boundary is where the next character is none
that the loop takes (`Outside`).  Digits are made a number only up to a limit on how many there are,
so the numbers are those with no more digits than that (`FewDigits`).
-/

namespace ParserAlgebra

open ParserAlgebra.Parser ParserAlgebra.Value

/-! ## What comes next -/

theorem not_mem_digits_of_whitespace : ∀ c ∈ CharSet.whitespace, c ∉ CharSet.digits :=
  CharSet.not_mem_of_all rfl

theorem not_mem_whitespace_of_digit : ∀ c ∈ CharSet.digits, c ∉ CharSet.whitespace :=
  CharSet.not_mem_of_all rfl

/-- **Some whitespace**, or none. -/
abbrev Blank := { w : List Char // ∀ c ∈ w, c ∈ CharSet.whitespace }

/-- Whitespace keeps digits apart. -/
theorem Blank.outside_digits (w : Blank) {behind : List Char}
    (h : w.1 ≠ [] ∨ Outside CharSet.digits behind) : Outside CharSet.digits (w.1 ++ behind) := by
  obtain ⟨w, hw⟩ := w
  cases w with
  | nil => exact h.resolve_left fun hne => hne rfl
  | cons c w => exact outside_cons.2 (not_mem_digits_of_whitespace c (hw c List.mem_cons_self))

theorem mem_digits_of_toDigits {n : Nat} {c : Char} (h : c ∈ Nat.toDigits 10 n) :
    c ∈ CharSet.digits :=
  CharSet.mem_digits_of_isDigit (Nat.isDigit_of_mem_toDigits (by decide) (by decide) h)

/-- The digits of a number begin with a digit. -/
theorem outside_toDigits {cs : CharSet} (h : ∀ c ∈ CharSet.digits, c ∉ cs) (n : Nat)
    (behind : List Char) : Outside cs (Nat.toDigits 10 n ++ behind) := by
  obtain ⟨c, text, htext⟩ :=
    List.exists_cons_of_ne_nil (Nat.toDigits_ne_nil (n := n) (b := 10))
  have hc : c ∈ Nat.toDigits 10 n := htext ▸ List.mem_cons_self
  rw [htext]
  exact outside_cons.2 (h c (mem_digits_of_toDigits hc))

/-- **A whole number as it is printed.** -/
def numeral (n : Int) : List Char := (toString n).toList

/-- A numeral is a sign, if the number is negative, and the digits of its size. -/
theorem numeral_eq (n : Int) :
    numeral n = (if n < 0 then ['-'] else []) ++ Nat.toDigits 10 n.natAbs := by
  cases n with
  | ofNat m => simp [numeral, toString, Int.repr]
  | negSucc m => simp [numeral, toString, Int.repr, Int.negSucc_lt_zero]

theorem outside_whitespace_numeral (n : Int) (behind : List Char) :
    Outside CharSet.whitespace (numeral n ++ behind) := by
  rw [numeral_eq]
  split
  · exact outside_cons.2 (by decide)
  · exact outside_toDigits not_mem_whitespace_of_digit _ behind

theorem outside_digits_numeral {n : Int} (hn : n < 0) (behind : List Char) :
    Outside CharSet.digits (numeral n ++ behind) := by
  rw [numeral_eq, if_pos hn]
  exact outside_cons.2 (by decide)

/-- **A number that can be read back**: there are not too many digits to it. -/
def FewDigits (n : Int) : Prop := (Nat.toDigits 10 n.natAbs).length ≤ Action.digitLimit

instance : DecidablePred FewDigits := fun _ => Nat.decLe _ _

/-! ## Texts of many numbers -/

/-- A number that can be read back, and the whitespace behind it. -/
structure Entry where
  number : Int
  blank : Blank
  fewDigits : FewDigits number

namespace Entry

def text (e : Entry) : List Char := numeral e.number ++ e.blank.1

/-- **Numbers with a comma in front of each**, and whitespace behind each comma. -/
def commaText (more : List (Blank × Entry)) : List Char :=
  more.flatMap fun f => ',' :: (f.1.1 ++ f.2.text)

/-- **Numbers one behind the other.** -/
def rowText (es : List Entry) : List Char := es.flatMap text

/-- **Something tells two numbers apart**: whitespace, or a sign. -/
def Apart (e f : Entry) : Prop := e.blank.1 ≠ [] ∨ f.number < 0

instance : DecidableRel Apart := fun e f =>
  inferInstanceAs (Decidable (e.blank.1 ≠ [] ∨ f.number < 0))

theorem outside_whitespace_text (e : Entry) (behind : List Char) :
    Outside CharSet.whitespace (e.text ++ behind) := by
  rw [text, List.append_assoc]
  exact outside_whitespace_numeral e.number _

/-- A comma comes next, or nothing. -/
theorem outside_commaText {cs : CharSet} (h : ',' ∉ cs) (more : List (Blank × Entry)) :
    Outside cs (commaText more) := by
  cases more with
  | nil => exact outside_nil cs
  | cons f more => exact outside_cons.2 h

theorem outside_whitespace_rowText (es : List Entry) :
    Outside CharSet.whitespace (rowText es) := by
  cases es with
  | nil => exact outside_nil _
  | cons e es => exact outside_whitespace_text e (rowText es)

/-- Where numbers can be told apart, no digits come behind the digits of the first. -/
theorem outside_digits_rowText {e : Entry} {es : List Entry} (h : (e :: es).IsChain Apart) :
    e.blank.1 ≠ [] ∨ Outside CharSet.digits (rowText es) := by
  cases es with
  | nil => exact .inr (outside_nil _)
  | cons f es =>
    refine (List.isChain_cons_cons.1 h).1.imp_right fun hf => ?_
    change Outside CharSet.digits (f.text ++ rowText es)
    rw [text, List.append_assoc]
    exact outside_digits_numeral hf _

end Entry

/-! ## One number -/

section

variable {P : Type}

theorem joinTexts_char (cs : List Char) :
    Action.joinTexts (cs.map char : List (Value P)) = .ok (String.ofList cs) := by
  induction cs with
  | nil => rfl
  | cons c cs ih =>
    rw [List.map_cons, char, Action.joinTexts, ih]
    simp [Except.map]

/-- Digits are made a number, unless there are too many of them. -/
theorem integerOf_char (sign : Value P) (cs : List Char) (k : Identity) :
    Action.integerOf sign (.list (cs.map char) k) =
      if cs.length ≤ Action.digitLimit then .ok (.ofInt
        (if sign.isTruthy then -(Decimal.ofDigits cs : Int) else Decimal.ofDigits cs))
      else .error .tooManyDigits := by
  rw [Action.integerOf, elements_list]
  simp only [bind, Except.bind, joinTexts_char, Action.digitsOf, String.toList_ofList,
    String.length_ofList]
  by_cases hfew : cs.length ≤ Action.digitLimit
  · simp only [if_pos hfew]
    rfl
  · simp only [if_neg hfew]

variable [Primitive P] {rules : String → Option (Value P)}

/-- A run of digits. -/
theorem finds_digits {cs behind : List Char} (hne : cs ≠ []) (h : ∀ c ∈ cs, c ∈ CharSet.digits)
    (hb : Outside CharSet.digits behind) :
    Finds rules (digit.repeat1 gathered : Parser P).body (cs.map char) (.list (cs.map char) none)
      (behind.map char) := by
  obtain ⟨c, cs, rfl⟩ := List.exists_cons_of_ne_nil hne
  obtain ⟨hc, hcs⟩ := List.forall_mem_cons.1 h
  have first : Finds rules (digit : Parser P).body [char c] (char c)
      (cs.map char ++ behind.map char) := finds_charIn hc
  exact finds_repeat1 first (findsMany_charIn (p := digit) rfl hcs hb) (returns_gathered _)

/-- Digits behind what is found as their sign. -/
theorem finds_signedDigits {sign : Value P} {ts : List (Value P)} {cs behind : List Char}
    (h : Finds rules (token (.ofText "-") : Parser P).optional.body ts sign
      ((cs ++ behind).map char))
    (hs : sign.isComposite = false) (hne : cs ≠ []) (hcs : ∀ c ∈ cs, c ∈ CharSet.digits)
    (hb : Outside CharSet.digits behind) :
    Finds rules (signedDigits : Parser P).body (ts ++ cs.map char)
      (.composite [sign, .list (cs.map char) none] none) (behind.map char) := by
  rw [List.map_append] at h
  have pair := finds_pair (q := digit.repeat1 gathered) h (finds_digits hne hcs hb)
  rwa [concat_pair hs rfl] at pair

/-- They are made a number, if there are not too many of them. -/
theorem finds_signed {sign : Value P} {ts rest : List (Value P)} {n : Int} {cs : List Char}
    (h : Finds rules (signedDigits : Parser P).body ts
      (.composite [sign, .list (cs.map char) none] none) rest)
    (hfew : cs.length ≤ Action.digitLimit)
    (hn : (if sign.isTruthy then -(Decimal.ofDigits cs : Int) else Decimal.ofDigits cs) = n) :
    Finds rules (integer : Parser P).body ts (.ofInt n) rest := by
  have answer : Comes (fun m => (Mapper.total (.action .toInteger) (some (.ofInt 1))).apply
      (call (quiet rules) m) [sign, .list (cs.map char) none]) (.ofInt n) := by
    refine comes_action ?_
    simp only [Action.apply, integerOf_char, if_pos hfew, hn]
    exact comes_pure _
  exact finds_map (p := signedDigits) h rfl answer

/-- **A printed number is found**, if no digit comes next. -/
theorem finds_integer {n : Int} (hn : FewDigits n) {behind : List Char}
    (hb : Outside CharSet.digits behind) :
    Finds rules (integer : Parser P).body ((numeral n).map char) (.ofInt n) (behind.map char) := by
  have digits : ∀ c ∈ Nat.toDigits 10 n.natAbs, c ∈ CharSet.digits := fun c =>
    mem_digits_of_toDigits
  rw [numeral_eq]
  split
  · rename_i hneg
    have read : Finds rules (signedDigits : Parser P).body _ _ _ :=
      finds_signedDigits (finds_optional (finds_tokenChar '-')) rfl Nat.toDigits_ne_nil digits hb
    refine finds_signed read hn ?_
    change -(Decimal.ofDigits (Nat.toDigits 10 n.natAbs) : Int) = n
    rw [Decimal.ofDigits_toDigits]
    omega
  · rename_i hneg
    have noSign : Outside ['-'] (Nat.toDigits 10 n.natAbs ++ behind) :=
      outside_toDigits (CharSet.not_mem_of_all rfl) n.natAbs behind
    have read : Finds rules (signedDigits : Parser P).body _ _ _ := finds_signedDigits
      (finds_absent (misses_tokenChar '-' noSign)) rfl Nat.toDigits_ne_nil digits hb
    refine finds_signed read hn ?_
    rw [Decimal.ofDigits_toDigits]
    change (n.natAbs : Int) = n
    omega

/-! ## Many numbers -/

/-- A number, and whitespace behind it. -/
abbrev entry : Parser P := sequenced [integer, spaces]

/-- A comma, and whitespace behind it. -/
abbrev comma : Parser P := sequenced [token (.ofText ","), spaces]

theorem finds_entry (e : Entry) {behind : List Char}
    (hd : e.blank.1 ≠ [] ∨ Outside CharSet.digits behind)
    (hw : Outside CharSet.whitespace behind) :
    Finds rules (entry : Parser P).body (e.text.map char) (.ofInt e.number) (behind.map char) := by
  rw [Entry.text, List.map_append]
  exact finds_lexeme (lexeme_of_isText rfl rfl)
    (finds_integer e.fewDigits (e.blank.outside_digits hd)) rfl e.blank.2 hw

theorem finds_comma (u : Blank) {behind : List Char} (hw : Outside CharSet.whitespace behind) :
    Finds rules (comma : Parser P).body ([char ','] ++ u.1.map char) (char ',')
      (behind.map char) :=
  finds_lexeme (lexeme_of_isText rfl rfl) (finds_tokenChar ',') rfl u.2 hw

/-- A number in front of commas. -/
theorem finds_front (e : Entry) (more : List (Blank × Entry)) :
    Finds rules (entry : Parser P).body (e.text.map char) (.ofInt e.number)
      ((Entry.commaText more).map char) :=
  finds_entry e (.inr (Entry.outside_commaText (by decide) more))
    (Entry.outside_commaText (by decide) more)

/-- Numbers behind commas are found one by one. -/
theorem findsMany_commaText (more : List (Blank × Entry)) :
    FindsMany rules (sequenced [(comma : Parser P).skipped, entry])
      ((Entry.commaText more).map char) (more.map fun f => .ofInt f.2.number) [] := by
  induction more with
  | nil =>
    have noComma : Misses rules (token (.ofText ",") : Parser P).body [] :=
      misses_tokenChar ',' (outside_nil _)
    exact .nil (misses_sequence (misses_map (misses_sequence noComma)))
  | cons f more ih =>
    have behindComma : Finds rules (comma : Parser P).body ([char ','] ++ f.1.1.map char)
        (char ',') ((f.2.text ++ Entry.commaText more).map char) :=
      finds_comma f.1 (Entry.outside_whitespace_text f.2 (Entry.commaText more))
    rw [List.map_append] at behindComma
    have step := finds_pair (q := entry) (finds_skipped behindComma) (finds_front f.2 more)
    rw [concat_empty_left (unwrap_of_isComposite rfl), anew_of_isComposite rfl] at step
    have text : (Entry.commaText (f :: more)).map char = ([char ','] ++ f.1.1.map char ++
        f.2.text.map char) ++ ((Entry.commaText more).map char : List (Value P)) := by
      simp [Entry.commaText]
    rw [text]
    exact .cons (by rwa [List.append_nil]) ih

/-- A number in front of others that it can be told apart from. -/
theorem finds_first {e : Entry} {es : List Entry} (h : (e :: es).IsChain Entry.Apart) :
    Finds rules (entry : Parser P).body (e.text.map char) (.ofInt e.number)
      ((Entry.rowText es).map char) :=
  finds_entry e (Entry.outside_digits_rowText h) (Entry.outside_whitespace_rowText es)

/-- Numbers that can be told apart are found one by one. -/
theorem findsMany_rowText {es : List Entry} (h : es.IsChain Entry.Apart) :
    FindsMany rules (entry : Parser P) ((Entry.rowText es).map char)
      (es.map fun e => .ofInt e.number) [] := by
  induction es with
  | nil =>
    have noDigit : Misses rules (digit : Parser P).body [] :=
      misses_charIn (outside_nil CharSet.digits)
    have noDigits : Misses rules (digit.repeat1 gathered : Parser P).body [] :=
      misses_repeat1 noDigit
    have noSign : Finds rules (token (.ofText "-") : Parser P).optional.body [] .absent [] :=
      finds_absent (misses_tokenChar '-' (outside_nil _))
    have noNumber : Misses rules (signedDigits : Parser P).body [] := misses_pair noSign noDigits
    exact .nil (misses_sequence (misses_map noNumber))
  | cons e es ih =>
    have first : Finds rules (entry : Parser P).body _ _ _ := finds_first h
    have text : (Entry.rowText (e :: es)).map char =
        e.text.map char ++ ((Entry.rowText es).map char : List (Value P)) := List.map_append
    rw [text]
    exact .cons (by rwa [List.append_nil]) (ih h.of_cons)

/-! ## Whole texts -/

/-- Whole numbers with commas in between. -/
def commaNumbers : Except (Error P) (Parser P) := do
  (← integer.lexeme).separated (← (token (.ofText ",")).lexeme) (.ofAction .gather)

/-- Whole numbers one behind the other. -/
def rowNumbers : Except (Error P) (Parser P) := do
  return (← integer.lexeme).repeat1 gathered

theorem comes_commaNumbers {q : Parser P} (hq : commaNumbers = .ok q) (e : Entry)
    (more : List (Blank × Entry)) {o : Origin} (ho : o.ordered = true) :
    Comes (fun n => q.parse (quiet rules) n o
        (characters (String.ofList (e.text ++ Entry.commaText more))) true)
      (.list (.ofInt e.number :: more.map fun f => .ofInt f.2.number) none) := by
  have hentry : (integer : Parser P).lexeme = .ok entry := lexeme_of_isText rfl rfl
  have hcomma : (token (.ofText ",") : Parser P).lexeme = .ok comma := lexeme_of_isText rfl rfl
  simp only [commaNumbers, hentry, hcomma, bind, Except.bind] at hq
  have first : Finds rules (entry : Parser P).body (e.text.map char) (.ofInt e.number)
      ((Entry.commaText more).map char ++ []) := by
    rw [List.append_nil]
    exact finds_front e more
  have found := finds_separated hq first (findsMany_commaText more) rfl (returns_gathered _)
  have whole := found.parse ho true fun _ => rfl
  rw [unwrap_of_isComposite rfl] at whole
  simpa [characters] using whole

theorem comes_rowNumbers {q : Parser P} (hq : rowNumbers = .ok q) {e : Entry} {es : List Entry}
    (h : (e :: es).IsChain Entry.Apart) {o : Origin} (ho : o.ordered = true) :
    Comes (fun n => q.parse (quiet rules) n o
        (characters (String.ofList (Entry.rowText (e :: es)))) true)
      (.list ((e :: es).map fun f => .ofInt f.number) none) := by
  have hentry : (integer : Parser P).lexeme = .ok entry := lexeme_of_isText rfl rfl
  simp only [rowNumbers, hentry, bind, Except.bind] at hq
  cases hq
  have first : Finds rules (entry : Parser P).body (e.text.map char) (.ofInt e.number)
      ((Entry.rowText es).map char ++ []) := by
    rw [List.append_nil]
    exact finds_first h
  have found := finds_repeat1 first (findsMany_rowText h.of_cons) (returns_gathered _)
  have whole := Finds.parse (p := entry.repeat1 gathered) found ho true fun _ => rfl
  simpa [characters, Entry.rowText] using whole

/-- **Printed numbers are parsed back.**  Both grammars are admitted; a text of numbers with commas
in between, and one of numbers that whitespace or signs tell apart, are parsed as the list of these
numbers, whatever other whitespace there is. -/
theorem printed_numbers_parse_back (rules : String → Option (Value P)) {o : Origin}
    (ho : o.ordered = true) :
    (∃ q : Parser P, commaNumbers = .ok q ∧ ∀ (e : Entry) (more : List (Blank × Entry)),
      Comes (fun n => q.parse (quiet rules) n o
          (characters (String.ofList (e.text ++ Entry.commaText more))) true)
        (.list (.ofInt e.number :: more.map fun f => .ofInt f.2.number) none)) ∧
    ∃ q : Parser P, rowNumbers = .ok q ∧ ∀ (e : Entry) (es : List Entry),
      (e :: es).IsChain Entry.Apart →
      Comes (fun n => q.parse (quiet rules) n o
          (characters (String.ofList (Entry.rowText (e :: es)))) true)
        (.list ((e :: es).map fun f => .ofInt f.number) none) := by
  refine ⟨⟨_, rfl, ?_⟩, ⟨_, rfl, ?_⟩⟩
  · exact fun e more => comes_commaNumbers rfl e more ho
  · exact fun e es h => comes_rowNumbers rfl h ho

end

/-- A line feed. -/
abbrev newline : Blank := ⟨['\n'], by simp [CharSet.whitespace]⟩

abbrev noBlank : Blank := ⟨[], nofun⟩

/-- Three numbers are parsed back from `12-3⏎40`, and from `12,⏎-3⏎,40`. -/
theorem three_numbers_parse_back :
    let o : Origin := ⟨none, true⟩
    let rules : String → Option (Value Catalogue) := fun _ => none
    let twelve : Entry := ⟨12, noBlank, by decide⟩
    let minusThree : Entry := ⟨-3, newline, by decide⟩
    let forty : Entry := ⟨40, noBlank, by decide⟩
    let row : List Entry := [twelve, minusThree, forty]
    let tail : List (Blank × Entry) := [(newline, minusThree), (noBlank, forty)]
    let commas : List Char := twelve.text ++ Entry.commaText tail
    o.ordered = true ∧ row.IsChain Entry.Apart ∧ Entry.rowText row = "12-3\n40".toList ∧
    commas = "12,\n-3\n,40".toList ∧
    (∃ q, commaNumbers = .ok q ∧
      Comes (fun n => q.parse (quiet rules) n o (characters (String.ofList commas)) true)
        (.list [.ofInt 12, .ofInt (-3), .ofInt 40] none)) ∧
    ∃ q, rowNumbers = .ok q ∧
      Comes (fun n => q.parse (quiet rules) n o
          (characters (String.ofList (Entry.rowText row))) true)
        (.list [.ofInt 12, .ofInt (-3), .ofInt 40] none) := by
  intro o rules twelve minusThree forty row tail commas
  have apart : row.IsChain Entry.Apart := by decide
  obtain ⟨⟨p, hp, between⟩, ⟨q, hq, behind⟩⟩ := printed_numbers_parse_back rules (o := o) rfl
  refine ⟨rfl, apart, by decide, by decide, ⟨p, hp, between twelve tail⟩, ⟨q, hq, ?_⟩⟩
  exact behind _ _ apart

end ParserAlgebra
