/-!
# Text/CharSet — the fixed sets of characters

Four sets recur in character-level grammars.  Each is a list without repetition, sorted by code
point, so that listing a set needs no further ordering.  All four are ASCII: `é` is no letter here,
and a no-break space is no whitespace.
-/

namespace ParserAlgebra

/-- A finite set of characters, listed by code point. -/
abbrev CharSet := List Char

namespace CharSet

/-- The characters from `first` to `last`, both included. -/
def between (first last : Char) : CharSet :=
  (List.range (last.toNat + 1 - first.toNat)).map fun i => Char.ofNat (first.toNat + i)

/-- Tab, line feed, form feed, carriage return and space. -/
def whitespace : CharSet := ['\t', '\n', '\x0c', '\r', ' ']

def digits : CharSet := between '0' '9'

def letters : CharSet := between 'A' 'Z' ++ between 'a' 'z'

def alphanumerics : CharSet := digits ++ letters

/-- What may follow the first character of an identifier. -/
def wordCharacters : CharSet := digits ++ between 'A' 'Z' ++ ['_'] ++ between 'a' 'z'

theorem mem_between {first last c : Char} (lower : first.toNat ≤ c.toNat)
    (upper : c.toNat ≤ last.toNat) : c ∈ between first last := by
  refine List.mem_map.2 ⟨c.toNat - first.toNat, List.mem_range.2 (by omega), ?_⟩
  rw [Nat.add_sub_cancel' lower, Char.ofNat_toNat]

theorem mem_digits_of_isDigit {c : Char} (h : c.isDigit = true) : c ∈ digits := by
  obtain ⟨lower, upper⟩ : 48 ≤ c.toNat ∧ c.toNat ≤ 57 := by
    simpa [Char.isDigit, UInt32.le_iff_toNat_le] using h
  exact mem_between lower upper

theorem mem_digits_iff_isDigit {c : Char} : c ∈ digits ↔ c.isDigit = true :=
  ⟨List.all_eq_true.1 (by decide : digits.all Char.isDigit = true) c, mem_digits_of_isDigit⟩

theorem mem_upper_of_isUpper {c : Char} (h : c.isUpper = true) : c ∈ between 'A' 'Z' := by
  obtain ⟨lower, upper⟩ := of_decide_eq_true h
  exact mem_between (UInt32.le_iff_toNat_le.1 lower) (UInt32.le_iff_toNat_le.1 upper)

theorem mem_lower_of_isLower {c : Char} (h : c.isLower = true) : c ∈ between 'a' 'z' := by
  obtain ⟨lower, upper⟩ := Bool.and_eq_true_iff.1 h
  exact mem_between (UInt32.le_iff_toNat_le.1 (of_decide_eq_true lower))
    (UInt32.le_iff_toNat_le.1 (of_decide_eq_true upper))

theorem mem_letters_iff_isAlpha {c : Char} : c ∈ letters ↔ c.isAlpha = true := by
  refine ⟨List.all_eq_true.1 (by decide : letters.all Char.isAlpha = true) c, fun h => ?_⟩
  obtain hupper | hlower := Bool.or_eq_true_iff.1 h
  · exact List.mem_append_left _ (mem_upper_of_isUpper hupper)
  · exact List.mem_append_right _ (mem_lower_of_isLower hlower)

theorem mem_wordCharacters_iff {c : Char} :
    c ∈ wordCharacters ↔ (c.isAlphanum || c == '_') = true := by
  refine ⟨List.all_eq_true.1 (by decide : wordCharacters.all (fun c => c.isAlphanum || c == '_') =
    true) c, fun h => ?_⟩
  simp only [wordCharacters, List.mem_append, List.mem_singleton]
  obtain halphanum | hunderscore := Bool.or_eq_true_iff.1 h
  · obtain halpha | hdigit := Bool.or_eq_true_iff.1 halphanum
    · obtain hupper | hlower := Bool.or_eq_true_iff.1 halpha
      · exact .inl (.inl (.inr (mem_upper_of_isUpper hupper)))
      · exact .inr (mem_lower_of_isLower hlower)
    · exact .inl (.inl (.inl (mem_digits_of_isDigit hdigit)))
  · exact .inl (.inr (eq_of_beq hunderscore))

/-- Sets that have nothing in common, as checking their members one by one tells. -/
theorem not_mem_of_all {cs ds : CharSet} (h : (cs.all fun c => !ds.contains c) = true) :
    ∀ c ∈ cs, c ∉ ds := by
  simpa using h

end CharSet

end ParserAlgebra
