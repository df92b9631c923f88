import ParserAlgebra.Parser.Characters
import ParserAlgebra.Proofs.Comes.General
import ParserAlgebra.Proofs.Finds

/-!
# Proofs/Finds/General — what the general parsers find

    token x      x
    spaces       any whitespace
    separated    v₁ s v₂ s … vₙ                [v₁, …, vₙ]
    chainLeft    v₀ f₁ v₁ f₂ v₂ … fₙ vₙ        fₙ (… f₂ (f₁ v₀ v₁) v₂ …) vₙ

A single token is found or missed by what a predicate says of it, and that is asked of the next
token alone.  So where a piece ends is settled by the first token behind it (`NextNot`).
-/

namespace ParserAlgebra

variable {P : Type} [Primitive P] {rules : String → Option (Value P)}

open ParserAlgebra.Parser Value

/-- **The next token**, if there is one, is no composite and does not satisfy `Q`. -/
def NextNot (Q : Value P → Prop) (ts : List (Value P)) : Prop :=
  ∀ t ∈ ts.head?, t.isComposite = false ∧ ¬Q t

omit [Primitive P] in
theorem nextNot_nil (Q : Value P → Prop) : NextNot Q [] := nofun

omit [Primitive P] in
theorem nextNot_cons {Q : Value P → Prop} {t : Value P} {ts : List (Value P)} :
    NextNot Q (t :: ts) ↔ t.isComposite = false ∧ ¬Q t := by simp [NextNot]

section

variable {ts us rest items : List (Value P)} {t v w x : Value P} {f : Callable P}

/-! ## One token -/

theorem finds_satisfy {b : Value P} (ht : t.isComposite = false)
    (hf : Returns rules f [t] (.ok b)) (hb : b.isTruthy = true) :
    Finds rules (satisfy f).body [t] t rest := by
  rw [← components_of_isComposite ht] at hf
  have found : Finds rules (.map one (.filter f)) [t] (tupleOf t.components).unwrap rest :=
    finds_filter finds_one hf hb
  rwa [components_of_isComposite ht, tupleOf_singleton, unwrap_of_isComposite ht] at found

theorem misses_satisfy (h : ∀ t ∈ ts.head?, t.isComposite = false ∧
    ∃ b, Returns rules f [t] (.ok b) ∧ b.isTruthy = false) : Misses rules (satisfy f).body ts := by
  cases ts with
  | nil => exact misses_map (p := one) misses_one
  | cons t ts =>
    obtain ⟨ht, b, hf, hb⟩ := h t rfl
    rw [← components_of_isComposite ht] at hf
    exact misses_filter (p := one) finds_one hf hb

theorem returns_equals (x t : Value P) :
    Returns rules (.action (.equals x)) [t] (.ok (.bool (t.equals x))) :=
  (comes_action (comes_pure _)).returns

theorem finds_token (ht : t.isComposite = false) (h : t.equals x = true) :
    Finds rules (token x).body [t] t rest := finds_satisfy ht (returns_equals x t) h

theorem misses_token (h : NextNot (fun t => t.equals x = true) ts) :
    Misses rules (token x).body ts :=
  misses_satisfy fun t ht => ⟨(h t ht).1, _, returns_equals x t, Bool.eq_false_iff.2 (h t ht).2⟩

/-! ## Characters -/

theorem toString_beq_toString (c d : Char) : (c.toString == d.toString) = true ↔ c = d := by
  rw [beq_iff_eq, Char.toString_eq_singleton, Char.toString_eq_singleton, String.singleton_inj]

omit [Primitive P] in
/-- A character is in a set as a token if it is in the set. -/
theorem isInSet_char (c : Char) (cs : CharSet) :
    (char c : Value P).isInSet cs = true ↔ c ∈ cs := by
  simp only [isInSet, char, List.any_eq_true, toString_beq_toString, exists_eq_right]

omit [Primitive P] in
theorem equals_char (c d : Char) :
    (char c : Value P).equals (.ofText d.toString) = true ↔ c = d := by
  rw [char, ofText, equals_text, toString_beq_toString]

theorem returns_inSet (c : Char) (cs : CharSet) :
    Returns rules (.action (.inSet cs)) [char c] (.ok (.bool ((char c : Value P).isInSet cs))) :=
  (comes_action (comes_pure _)).returns

theorem finds_charIn {c : Char} {cs : CharSet} (h : c ∈ cs) :
    Finds rules (charIn cs).body [char c] (char c) rest :=
  finds_satisfy rfl (returns_inSet c cs) ((isInSet_char (P := P) c cs).2 h)

/-- **The next character**, if there is one, is not in the set. -/
def Outside (cs : CharSet) (text : List Char) : Prop := ∀ c ∈ text.head?, c ∉ cs

theorem outside_nil (cs : CharSet) : Outside cs [] := nofun

theorem outside_cons {cs : CharSet} {c : Char} {text : List Char} :
    Outside cs (c :: text) ↔ c ∉ cs := by simp [Outside]

theorem misses_charIn {cs : CharSet} {text : List Char} (h : Outside cs text) :
    Misses rules (charIn cs).body (text.map char) := by
  refine misses_satisfy fun t ht => ?_
  rw [List.head?_map, Option.mem_def, Option.map_eq_some_iff] at ht
  obtain ⟨c, hc, rfl⟩ := ht
  have hout : ¬(char c : Value P).isInSet cs = true := fun hin => h c hc ((isInSet_char c cs).1 hin)
  exact ⟨rfl, _, returns_inSet c cs, Bool.eq_false_iff.2 hout⟩

/-- The token of one character. -/
theorem finds_tokenChar (c : Char) :
    Finds rules (token (.ofText c.toString)).body [char c] (char c) rest :=
  finds_token rfl ((equals_char c c).2 rfl)

theorem misses_tokenChar (c : Char) {text : List Char} (h : Outside [c] text) :
    Misses rules (token (.ofText c.toString)).body (text.map char) := by
  refine misses_token fun t ht => ?_
  rw [List.head?_map, Option.mem_def, Option.map_eq_some_iff] at ht
  obtain ⟨d, hd, rfl⟩ := ht
  exact ⟨rfl, fun heq => h d hd (List.mem_singleton.2 ((equals_char d c).1 heq))⟩

/-- Characters of a set are found one by one. -/
theorem findsMany_charIn {p : Parser P} {cs : CharSet} (hp : p.body = (charIn cs).body)
    {text : List Char} (h : ∀ c ∈ text, c ∈ cs) {behind : List Char} (hb : Outside cs behind) :
    FindsMany rules p (text.map char) (text.map char) (behind.map char) := by
  induction text with
  | nil =>
    refine .nil ?_
    rw [hp]
    exact misses_charIn hb
  | cons c text ih =>
    obtain ⟨hc, htext⟩ := List.forall_mem_cons.1 h
    change FindsMany rules p ([char c] ++ text.map char) _ _
    refine .cons ?_ (ih htext)
    rw [hp]
    exact finds_charIn hc

/-! ## Pairs -/

theorem finds_pair {p q : Parser P} (h : Finds rules p.body ts v (us ++ rest))
    (k : Finds rules q.body us w rest) :
    Finds rules (.sequence [p, q]) (ts ++ us) (concat [v, w]) rest := by
  have row : FindsRow rules [p, q] (ts ++ (us ++ [])) [v, w] rest :=
    .cons (by rwa [List.append_nil]) (.cons k .nil)
  rw [List.append_nil] at row
  exact finds_sequence row

/-! ## Dropping what was found -/

theorem finds_skipped {p : Parser P} (h : Finds rules p.body ts v rest) :
    Finds rules p.skipped.body ts (.composite [] none) rest := by
  have found := finds_map (m := .discard) h rfl (comes_action (comes_pure (composite [] none)))
  rwa [unwrap_composite_nil] at found

/-- **Whitespace is found up to the next character that is none.** -/
theorem finds_spaces {blank behind : List Char} (h : ∀ c ∈ blank, c ∈ CharSet.whitespace)
    (hb : Outside CharSet.whitespace behind) :
    Finds rules (spaces : Parser P).body (blank.map char) (.composite [] none)
      (behind.map char) := by
  have row : FindsMany rules (whitespace : Parser P) (blank.map char) (blank.map char)
      (behind.map char) := findsMany_charIn (p := whitespace) rfl h hb
  exact finds_skipped (p := whitespace.repeat0 gathered)
    (finds_repeat0 row (returns_gathered _))

/-- What is found in front of whitespace. -/
theorem finds_lexeme {p q : Parser P} {blank behind : List Char} (hq : p.lexeme = .ok q)
    (h : Finds rules p.body ts v ((blank ++ behind).map char)) (hv : v.isComposite = false)
    (hblank : ∀ c ∈ blank, c ∈ CharSet.whitespace) (hb : Outside CharSet.whitespace behind) :
    Finds rules q.body (ts ++ blank.map char) v (behind.map char) := by
  rw [List.map_append] at h
  rw [eq_sequenced_of_sequence hq, ← anew_of_isComposite hv,
    ← concat_empty_right (unwrap_of_isComposite hv) none]
  exact finds_pair h (finds_spaces hblank hb)

/-! ## Items with separators -/

/-- **An item and any number of items behind separators** are collected in one list. -/
theorem finds_separated {p s q : Parser P} {g : Callable P} {i : Identity} {vs : List (Value P)}
    (hq : p.separated s (.callable g i) = .ok q) (h : Finds rules p.body ts v (us ++ rest))
    (hs : FindsMany rules (sequenced [s.skipped, p]) us vs rest) (hv : v.isComposite = false)
    (hg : Returns rules g [.list (v :: vs) none] (.ok x)) :
    Finds rules q.body (ts ++ us) x.unwrap rest := by
  intro o passed ho
  obtain ⟨steps, rfl, hs⟩ := hs.streak ho
  rw [← anew_of_isComposite hv] at hg
  rw [List.append_assoc, List.reverse_append, List.append_assoc]
  exact comes_separated hq (h.matches ho) hs (unwrap_of_isComposite hv) hg

/-! ## Operands with operators -/

/-- **An operand and any number of steps** are folded from the left. -/
theorem finds_chainLeft {p o q : Parser P} (hq : p.chainLeft o = .ok q)
    (h : Finds rules p.body ts x (us ++ rest))
    (hs : FindsMany rules (sequenced [o, p]) us items rest) (hx : x.isComposite = false)
    (hw : w.isComposite = false) (hf : Folds rules x items w) :
    Finds rules q.body (ts ++ us) w rest := by
  intro origin passed ho
  obtain ⟨steps, hsteps, hs⟩ := hs.streak ho
  rw [← hsteps] at hf
  rw [List.append_assoc, List.reverse_append, List.append_assoc, ← unwrap_of_isComposite hw]
  exact comes_chainLeft hq (h.matches ho) hs hx hf

end

end ParserAlgebra
