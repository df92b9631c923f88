import Mathlib.Data.List.TakeWhile
import Mathlib.Order.Bounds.Basic
import ParserAlgebra.Catalogue.Readers
import ParserAlgebra.Proofs.Finds.Positions
import ParserAlgebra.Proofs.Numerals

/-!
# Proofs/Words — which identifier stands at a position of a text

    at i:    letter or _ ,  letters, digits and _ …        anything else …
             all of them, as they stand there              no match

An identifier is read as far as its characters go, whether or not a shorter one would do, and what
is read is handed on character by character: its value is the piece of the text that it was read
off.  The characters are ASCII, so another letter or digit ends it.
-/

namespace ParserAlgebra

open ParserAlgebra.Parser ParserAlgebra.Value

/-! ## Words in a text -/

/-- **What an identifier begins with**: a letter or an underscore. -/
def startsWord (c : Char) : Bool := c.isAlpha || c == '_'

/-- **What it goes on with**: a letter, a digit or an underscore. -/
def continuesWord (c : Char) : Bool := c.isAlphanum || c == '_'

/-- **The places behind `i` where a word may end**: the end of the text, and in front of each
character that no word goes on with. -/
def wordEnds (text : List Char) (i : Nat) : Set Nat :=
  {j | i < j ∧ (j = text.length ∨ ∃ c ∈ text[j]?, continuesWord c = false)}

/-- **A text that is an identifier.** -/
def IsWord (text : List Char) : Prop :=
  (∃ c ∈ text.head?, startsWord c = true) ∧ ∀ c ∈ text, continuesWord c = true

/-- The word that a text begins with: all characters that a word goes on with. -/
def leadingWord (text : List Char) : List Char := text.takeWhile continuesWord

theorem continuesWord_of_startsWord {c : Char} (h : startsWord c = true) :
    continuesWord c = true := by
  obtain halpha | hunderscore := Bool.or_eq_true_iff.1 h
  · simp [continuesWord, Char.isAlphanum, halpha]
  · simp [continuesWord, hunderscore]

theorem continuesWord_of_mem_leadingWord {text : List Char} :
    ∀ c ∈ leadingWord text, continuesWord c = true :=
  List.all_eq_true.1 List.all_takeWhile

section

variable {text : List Char} {i : Nat} {c : Char}

theorem leadingWord_cons (h : startsWord c = true) :
    leadingWord (c :: text) = c :: leadingWord text :=
  List.takeWhile_cons_of_pos (continuesWord_of_startsWord h)

theorem leadingWord_ne_nil (h : ∃ c ∈ text.head?, startsWord c = true) : leadingWord text ≠ [] := by
  obtain ⟨c, hc, h⟩ := h
  obtain ⟨text, rfl⟩ := List.head?_eq_some_iff.1 hc
  rw [leadingWord_cons h]
  exact List.cons_ne_nil _ _

/-- Behind the characters of a word comes none that it goes on with. -/
theorem continuesWord_dropWhile (text : List Char) :
    ∀ c ∈ (text.dropWhile continuesWord).head?, continuesWord c = false := by
  intro c hc
  have hnot := List.head?_dropWhile_not continuesWord text
  rwa [Option.mem_def.1 hc] at hnot

/-- **The first place where a word may end** is behind all characters that it goes on with. -/
theorem isLeast_wordEnds_append {before word behind : List Char} (hne : word ≠ [])
    (hword : ∀ c ∈ word, continuesWord c = true)
    (hbehind : ∀ c ∈ behind.head?, continuesWord c = false) :
    IsLeast (wordEnds (before ++ (word ++ behind)) before.length)
      (before.length + word.length) := by
  have long := List.length_pos_iff.2 hne
  refine ⟨⟨by omega, ?_⟩, fun j ⟨hij, hj⟩ => ?_⟩
  · cases behind with
    | nil => exact .inl (by simp)
    | cons d behind => exact .inr ⟨d, by simp, hbehind d rfl⟩
  · by_contra! hlt
    -- in front of there all characters are those of the word
    have inside : j - before.length < word.length := by omega
    have here : (before ++ (word ++ behind))[j]? = some word[j - before.length] := by
      rw [List.getElem?_append_right hij.le, List.getElem?_append_left inside,
        List.getElem?_eq_getElem]
    have goes := hword _ (List.getElem_mem inside)
    obtain rfl | ⟨d, hd, hno⟩ := hj
    · simp at here
    · cases here.symm.trans hd
      rw [goes] at hno
      contradiction

theorem isLeast_wordEnds (h : ∃ c ∈ text[i]?, startsWord c = true) :
    IsLeast (wordEnds text i) (i + (leadingWord (text.drop i)).length) := by
  have split : text.take i ++ (leadingWord (text.drop i) ++
      (text.drop i).dropWhile continuesWord) = text := by
    rw [leadingWord, List.takeWhile_append_dropWhile, List.take_append_drop]
  have passed : (text.take i).length = i := by
    obtain ⟨c, hc, _⟩ := h
    obtain ⟨hi, _⟩ := List.getElem?_eq_some_iff.1 hc
    exact List.length_take_of_le hi.le
  rw [← List.head?_drop] at h
  have first : IsLeast (wordEnds (text.take i ++ _) _) _ :=
    isLeast_wordEnds_append (leadingWord_ne_nil h)
      continuesWord_of_mem_leadingWord (continuesWord_dropWhile (text.drop i))
  rwa [split, passed] at first

theorem extract_leadingWord (text : List Char) (i : Nat) :
    text.extract i (i + (leadingWord (text.drop i)).length) = leadingWord (text.drop i) := by
  rw [List.extract_eq_take_drop, Nat.add_sub_cancel_left]
  exact (List.prefix_iff_eq_take.1 (List.takeWhile_prefix _)).symm

end

/-! ## What is read -/

variable {P : Type} [Primitive P] {rules : String → Option (Value P)}

theorem finds_wordStart {c : Char} {text : List Char} (h : startsWord c = true) :
    Finds rules (wordStart : Parser P).body [char c] (char c) (text.map char) := by
  by_cases hc : c ∈ CharSet.letters
  · exact finds_head (p := Parser.letter) (finds_charIn hc)
  · have hunderscore : c = '_' := by
      simpa [startsWord, CharSet.mem_letters_iff_isAlpha.not.1 hc] using h
    subst hunderscore
    have noLetter : Misses rules (Parser.letter : Parser P).body (('_' :: text).map char) :=
      misses_charIn (outside_cons.2 hc)
    exact finds_tail noLetter (finds_head (finds_tokenChar '_'))

theorem finds_word {c : Char} {word behind : List Char} (h : startsWord c = true)
    (hword : ∀ d ∈ word, d ∈ CharSet.wordCharacters)
    (hb : Outside CharSet.wordCharacters behind) :
    Finds rules (identifier : Parser P).body ((c :: word).map char)
      (.ofText (String.ofList (c :: word))) (behind.map char) := by
  have start : Finds rules (wordStart : Parser P).body [char c] (char c)
      ((word ++ behind).map char) := finds_wordStart h
  have more : Finds rules ((charIn .wordCharacters).repeat0 gathered : Parser P).body
      (word.map char) (.list (word.map char) none) (behind.map char) :=
    finds_repeat0 (findsMany_charIn rfl hword hb) (returns_gathered _)
  rw [List.map_append] at start
  have pair := finds_pair start more
  rw [concat_pair rfl rfl] at pair
  have joined : Comes (fun m => (Mapper.total (.action .joinWord) (some (.ofInt 1))).apply
      (call (quiet rules) m) [char c, .list (word.map char) none])
        (.ofText (String.ofList (c :: word)) : Value P) := by
    refine comes_action ?_
    have text := joinTexts_char (P := P) (c :: word)
    rw [List.map_cons] at text
    simp only [Action.apply, Action.wordOf, elements_list, bind, Except.bind, text]
    exact comes_pure _
  exact finds_map (p := wordParts) pair rfl joined

/-- **A word is found as it stands**, up to where it ends. -/
theorem finds_leadingWord {text : List Char} (h : ∃ c ∈ text.head?, startsWord c = true) :
    Finds rules (identifier : Parser P).body ((leadingWord text).map char)
      (.ofText (String.ofList (leadingWord text)))
      ((text.dropWhile continuesWord).map char) := by
  obtain ⟨c, hc, h⟩ := h
  obtain ⟨text, rfl⟩ := List.head?_eq_some_iff.1 hc
  have ended : Outside CharSet.wordCharacters (text.dropWhile continuesWord) := fun d hd hmem =>
    Bool.eq_false_iff.1 (continuesWord_dropWhile text d hd) (CharSet.mem_wordCharacters_iff.1 hmem)
  rw [leadingWord_cons h, List.dropWhile_cons_of_pos (continuesWord_of_startsWord h)]
  exact finds_word h (fun d hd => CharSet.mem_wordCharacters_iff.2
    (continuesWord_of_mem_leadingWord d hd)) ended

/-- Where no word begins nothing is read. -/
theorem misses_identifier {text : List Char} (h : ∀ c ∈ text.head?, startsWord c = false) :
    Misses rules (identifier : Parser P).body (text.map char) := by
  have noLetter : Outside CharSet.letters text := fun c hc hmem => by
    simpa [startsWord, CharSet.mem_letters_iff_isAlpha.1 hmem] using h c hc
  have noUnderscore : Outside ['_'] text := fun c hc hmem => by
    rw [List.mem_singleton] at hmem
    simpa [startsWord, hmem] using h c hc
  have noStart : Misses rules (wordStart : Parser P).body (text.map char) :=
    misses_cons (p := Parser.letter) (misses_charIn noLetter)
      (misses_cons (misses_tokenChar '_' noUnderscore) misses_nil)
  exact misses_map (p := wordParts) (misses_sequence noStart)

section

variable {o : Origin} (ho : o.ordered = true) {s : String} {i : Nat}

include ho

theorem matchesAt_leadingWord (h : ∃ c ∈ s.toList[i]?, startsWord c = true) :
    MatchesAt rules (identifier : Parser P) o (characters s) i
      (.ofText (String.ofList (leadingWord (s.toList.drop i))))
      (i + (leadingWord (s.toList.drop i)).length) := by
  have inside : i ≤ (characters s : List (Value P)).length := by
    obtain ⟨c, hc, _⟩ := h
    obtain ⟨hi, _⟩ := List.getElem?_eq_some_iff.1 hc
    simpa [characters] using hi.le
  have split : (characters s : List (Value P)).drop i = (leadingWord (s.toList.drop i)).map char ++
      ((s.toList.drop i).dropWhile continuesWord).map char := by
    rw [characters, ← List.map_drop, ← List.map_append, leadingWord,
      List.takeWhile_append_dropWhile]
  rw [← List.head?_drop] at h
  have found : Finds rules (identifier : Parser P).body _ _ _ := finds_leadingWord h
  have matched := found.matchesAt ho inside split
  rwa [List.length_map] at matched

theorem failsAt_of_not_startsWord (hi : i ≤ s.toList.length)
    (h : ∀ c ∈ s.toList[i]?, startsWord c = false) :
    FailsAt rules (identifier : Parser P) o (characters s) i := by
  rw [← List.head?_drop] at h
  have missed : Misses rules (identifier : Parser P).body _ := misses_identifier h
  rw [List.map_drop] at missed
  exact missed.failsAt ho (by simpa [characters] using hi)

theorem startsWord_of_matchesAt {v : Value P} {j : Nat}
    (h : MatchesAt rules identifier o (characters s) i v j) :
    ∃ c ∈ s.toList[i]?, startsWord c = true := by
  have inside : i ≤ s.toList.length := by
    obtain ⟨c, d, hc, _⟩ := h
    simpa [characters] using le_length_of_at? hc
  by_contra hno
  have fails : FailsAt rules (identifier : Parser P) o (characters s) i :=
    failsAt_of_not_startsWord ho inside fun c hc => Bool.eq_false_iff.2 fun h => hno ⟨c, hc, h⟩
  exact h.not_failsAt fails

/-- **The piece of the text up to the first place where a word may end** is what is matched. -/
theorem matchesAt_identifier_iff {v : Value P} {j : Nat} :
    MatchesAt rules identifier o (characters s) i v j ↔
      (∃ c ∈ s.toList[i]?, startsWord c = true) ∧ IsLeast (wordEnds s.toList i) j ∧
        v = .ofText (String.ofList (s.toList.extract i j)) := by
  constructor
  · intro h
    have start := startsWord_of_matchesAt ho h
    obtain ⟨rfl, rfl⟩ := (matchesAt_leadingWord ho start).unique h
    exact ⟨start, isLeast_wordEnds start, by rw [extract_leadingWord]⟩
  · rintro ⟨start, hj, rfl⟩
    obtain rfl := hj.unique (isLeast_wordEnds start)
    rw [extract_leadingWord]
    exact matchesAt_leadingWord ho start

/-! ## Whole texts -/

/-- **A whole text that is an identifier is parsed as itself.** -/
theorem parse_identifier_of_isWord (h : IsWord s.toList) :
    Comes (fun n => (identifier : Parser P).parse (quiet rules) n o (characters s) true)
      (.ofText s) := by
  have whole : leadingWord s.toList = s.toList := List.takeWhile_eq_self_iff.2 h.2
  have nothing : s.toList.dropWhile continuesWord = [] := List.dropWhile_eq_nil_iff.2 h.2
  have found : Finds rules (identifier : Parser P).body _ _ _ := finds_leadingWord h.1
  rw [whole, nothing, String.ofList_toList] at found
  have parsed := found.parse ho true fun _ => rfl
  rwa [List.map_nil, List.append_nil] at parsed

/-- **Any other text is reported**: as no match, or as one in front of more. -/
theorem parse_identifier_raises (h : ¬IsWord s.toList) :
    let parsed : Nat → Run Unit P (Value P) := fun n =>
      (identifier : Parser P).parse (quiet rules) n o (characters s) true
    Raises parsed ((identifier : Parser P).noMatch o (characters s)) ∨
      ∃ j : Nat, Raises parsed (Parser.leftover (.int j) o (characters s)) := by
  by_cases start : ∃ c ∈ s.toList.head?, startsWord c = true
  · refine .inr ⟨((leadingWord s.toList).map (char (P := P))).length, ?_⟩
    have found : Finds rules (identifier : Parser P).body _ _ _ := finds_leadingWord start
    have more : (s.toList.dropWhile continuesWord).map (char (P := P)) ≠ [] := by
      rw [Ne, List.map_eq_nil_iff, List.dropWhile_eq_nil_iff]
      exact fun all => h ⟨start, all⟩
    have reported := found.parse_leftover ho more
    rwa [← List.map_append, leadingWord, List.takeWhile_append_dropWhile] at reported
  · have missed : Misses rules (identifier : Parser P).body (characters s) :=
      misses_identifier fun c hc => Bool.eq_false_iff.2 fun h => start ⟨c, hc, h⟩
    exact .inl (missed.parse ho rfl true)

end

/-- **An identifier is the longest word that stands at a position.**  There is a match where a
letter or an underscore stands, and nowhere else.  It ends at the first place behind that which is
the end of the text or holds no letter, digit or underscore, and its value is the piece of the text
in between.  So a whole text is parsed if it is one word, as itself, and is reported otherwise. -/
theorem identifier_reads_longest (rules : String → Option (Value P)) {o : Origin}
    (ho : o.ordered = true) :
    (∀ (s : String) (i : Nat),
      (∀ v j, MatchesAt rules (identifier : Parser P) o (characters s) i v j ↔
        (∃ c ∈ s.toList[i]?, startsWord c = true) ∧ IsLeast (wordEnds s.toList i) j ∧
          v = .ofText (String.ofList (s.toList.extract i j))) ∧
      ((∃ v j, MatchesAt rules (identifier : Parser P) o (characters s) i v j) ↔
        ∃ c ∈ s.toList[i]?, startsWord c = true) ∧
      (FailsAt rules (identifier : Parser P) o (characters s) i ↔
        i ≤ s.toList.length ∧ ∀ c ∈ s.toList[i]?, startsWord c = false)) ∧
    ∀ s : String,
      let parsed : Nat → Run Unit P (Value P) := fun n =>
        (identifier : Parser P).parse (quiet rules) n o (characters s) true
      (∀ v, Comes parsed v ↔ IsWord s.toList ∧ v = .ofText s) ∧
      (¬IsWord s.toList → Raises parsed ((identifier : Parser P).noMatch o (characters s)) ∨
        ∃ j : Nat, Raises parsed (Parser.leftover (.int j) o (characters s))) := by
  refine ⟨fun s i => ⟨fun v j => matchesAt_identifier_iff ho, ⟨?_, ?_⟩, ?_, ?_⟩, fun s => ?_⟩
  · rintro ⟨v, j, h⟩
    exact startsWord_of_matchesAt ho h
  · exact fun start => ⟨_, _, matchesAt_leadingWord ho start⟩
  · intro fails
    refine ⟨?_, fun c hc => Bool.eq_false_iff.2 fun h => ?_⟩
    · obtain ⟨c, hc, _⟩ := fails
      simpa [characters] using le_length_of_at? hc
    · exact (matchesAt_leadingWord ho ⟨c, hc, h⟩).not_failsAt fails
  · rintro ⟨inside, hno⟩
    exact failsAt_of_not_startsWord ho inside hno
  · refine ⟨fun v => ⟨fun h => ?_, ?_⟩, parse_identifier_raises ho⟩
    · have word : IsWord s.toList := by
        by_contra hno
        obtain he | ⟨j, he⟩ := parse_identifier_raises (P := P) ho hno
        · cases (ends_ok_iff.2 h).unique he
        · cases (ends_ok_iff.2 h).unique he
      exact ⟨word, (parse_identifier_of_isWord ho word).unique h⟩
    · rintro ⟨word, rfl⟩
      exact parse_identifier_of_isWord ho word

/-- In `é x_1é` there is no identifier at position 0, and at position 2 there is `x_1`, up to the
last character.  By itself `x_1` is parsed as itself. -/
theorem underscored_word_reads_longest :
    let o : Origin := ⟨none, true⟩
    let rules : String → Option (Value Catalogue) := fun _ => none
    o.ordered = true ∧ FailsAt rules identifier o (characters "é x_1é") 0 ∧
      MatchesAt rules identifier o (characters "é x_1é") 2 (.ofText "x_1") 5 ∧
      Comes (fun n => (identifier : Parser Catalogue).parse (quiet rules) n o (characters "x_1")
        true) (.ofText "x_1") := by
  intro o rules
  obtain ⟨longest, whole⟩ := identifier_reads_longest rules (o := o) rfl
  have outside : ∀ c ∈ "é x_1é".toList[0]?, startsWord c = false := by
    rintro _ ⟨⟩
    decide
  have start : ∃ c ∈ "é x_1é".toList[2]?, startsWord c = true := ⟨'x', by decide, by decide⟩
  have stop : 2 + (leadingWord ("é x_1é".toList.drop 2)).length = 5 := by decide
  have first : IsLeast (wordEnds "é x_1é".toList 2) 5 := by
    rw [← stop]
    exact isLeast_wordEnds start
  have piece : "é x_1é".toList.extract 2 5 = "x_1".toList := by decide
  have word : IsWord "x_1".toList :=
    ⟨⟨'x', by decide, by decide⟩, List.all_eq_true.1 (by decide)⟩
  refine ⟨rfl, (longest _ 0).2.2.2 ⟨Nat.zero_le _, outside⟩, ?_, ((whole _).1 _).2 ⟨word, rfl⟩⟩
  refine ((longest _ 2).1 _ _).2 ⟨start, first, ?_⟩
  rw [piece, String.ofList_toList]

end ParserAlgebra
