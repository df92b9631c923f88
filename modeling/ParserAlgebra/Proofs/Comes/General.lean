import ParserAlgebra.Parser.Chains
import ParserAlgebra.Proofs.Comes
import ParserAlgebra.Proofs.Unwrapped

/-!
# Proofs/Comes/General — what the general parsers come to

    separated    v₀ s v₁ s v₂ …        collection [v₀, v₁, v₂, …]
    chainLeft    x₀ f₁ x₁ f₂ x₂ …      … f₂ (f₁ x₀ x₁) x₂ …
    chainRight   x₀ f₁ x₁ f₂ … xₙ      f₁ x₀ (f₂ x₁ (… xₙ))

All three are a sequence of an item and a repetition of pairs, under a mapper that takes the pairs
apart.  Here that mapper is followed, with the pairs given as what the repetition has matched.
-/

namespace ParserAlgebra

variable {P : Type} [Primitive P] {rules : String → Option (Value P)}

open ParserAlgebra.Parser Value

section

variable {p q s : Parser P} {c d e v w x : Value P} {f : Callable P}

/-! ## Parts -/

theorem Matches.pair (h : Matches rules p c v d) (k : Matches rules q d w e) :
    Matches rules (sequenced [p, q]) c (concat [v, w]) e :=
  matches_of_body (comes_sequence (.cons h (.cons k .nil)))

/-- A sequence of two declines where its first parser does. -/
theorem Declines.pair (h : Declines rules p c) : Declines rules (sequenced [p, q]) c :=
  declines_of_body (comes_sequence_failure .nil h)

/-- A sequence of two declines where its second parser does. -/
theorem Matches.pair_declines (h : Matches rules p c v d) (k : Declines rules q d) :
    Declines rules (sequenced [p, q]) c := declines_of_body (comes_pair_failure h k)

theorem Matches.skipped (h : Matches rules p c v d) :
    Matches rules p.skipped c (composite [] none) d := by
  have dropped : Comes (fun n => Mapper.discard.apply (call (quiet rules) n) v.components)
      (composite [] none) := comes_action (comes_pure _)
  have found := comes_map h rfl dropped
  rw [unwrap_composite_nil] at found
  exact matches_of_body found

theorem Declines.skipped (h : Declines rules p c) : Declines rules p.skipped c :=
  declines_of_body (comes_map_failure h)

/-- A single component is matched by itself if a predicate holds for it. -/
theorem Matches.filtered {b : Value P} (h : Matches rules q c x d)
    (hp : p.body = .map q (.filter f)) (hx : x.isComposite = false)
    (hf : Returns rules f [x] (.ok b)) (hb : b.isTruthy = true) : Matches rules p c x d := by
  rw [← components_of_isComposite hx] at hf
  have found := comes_filtered h hf hb
  rw [components_of_isComposite hx, tupleOf_singleton, unwrap_of_isComposite hx] at found
  refine matches_of_body ?_
  rw [hp]
  exact found

theorem Matches.filtered_declines {b : Value P} (h : Matches rules q c x d)
    (hp : p.body = .map q (.filter f)) (hx : x.isComposite = false)
    (hf : Returns rules f [x] (.ok b)) (hb : b.isTruthy = false) : Declines rules p c := by
  rw [← components_of_isComposite hx] at hf
  refine declines_of_body ?_
  rw [hp]
  exact comes_filtered_failure h hf hb

theorem Declines.filtered (h : Declines rules q c) (hp : p.body = .map q (.filter f)) :
    Declines rules p c := by
  refine declines_of_body ?_
  rw [hp]
  exact comes_map_failure h

theorem returns_gathered (xs : List (Value P)) :
    Returns rules gathered [.list xs none] (.ok (.list xs none)) :=
  (comes_action (comes_pure _)).returns

/-- A repetition that gathers matches with the list of all values. -/
theorem Streak.gathered {vs : List (Value P × Value P)}
    (h : Streak (Matches rules p) (Declines rules p) c vs e) :
    Matches rules (p.repeat0 gathered) c (.list (Streak.values vs) none) e :=
  matches_of_body (comes_repeat0 h (returns_gathered _))

omit [Primitive P] in
/-- Two components are a pair. -/
theorem concat_pair (hv : v.isComposite = false) (hw : w.isComposite = false) :
    concat [v, w] = .composite [v, w] none := by
  rw [concat_of_flat (flat_cons.2 ⟨hv, flat_singleton.2 hw⟩)]
  rfl

/-! ## Items with separators -/

omit [Primitive P] in
/-- What items with separators are made of. -/
theorem separated_body [Labelled P] {g : Value P} (hq : p.separated s g = .ok q) :
    q.body = .map (sequenced [p, (sequenced [s.skipped, p]).repeat0 gathered])
      (.total (.action (.collectSeparated g)) (some (.ofInt 1))) := by
  obtain ⟨t, ht, hq⟩ := exists_ok_of_bind hq
  obtain ⟨item, hitem, hq⟩ := exists_ok_of_bind hq
  obtain ⟨row, hrow, hq⟩ := exists_ok_of_bind hq
  obtain ⟨r, hr, hq⟩ := exists_ok_of_bind hq
  cases hq
  rw [(skip_eq_ok ht).2] at hitem
  rw [eq_sequenced_of_sequence hitem] at hrow
  rw [eq_sequenced_of_sequence hrow] at hr
  rw [named_body, (map_eq_ok hr).2]
  rfl

/-- Leading components and a list are collected in one list, the components as one element. -/
theorem comes_collectSeparated {i : Identity} {xs ys : List (Value P)}
    (hf : Returns rules f [.list (tupleOf xs :: ys) none] (.ok x)) :
    Comes (fun n => call (quiet rules) n (.action (.collectSeparated (.callable f i)))
      (xs ++ [.list ys none])) x := by
  refine comes_action ?_
  simp only [Action.apply, Action.collectWith, List.getLast?_append, List.getLast?_singleton,
    Option.some_or, List.dropLast_concat]
  exact (comes_pure ys).bind ((comes_own _).bind hf.comes)

/-- **An item and any number of items behind separators** are collected in one list. -/
theorem comes_separated {i : Identity} {vs : List (Value P × Value P)}
    (hq : p.separated s (.callable f i) = .ok q) (h : Matches rules p c v d)
    (hs : Streak (Matches rules (sequenced [s.skipped, p]))
      (Declines rules (sequenced [s.skipped, p])) d vs e)
    (hv : v.unwrap = v) (hf : Returns rules f [.list (v.anew :: Streak.values vs) none] (.ok x)) :
    Comes (fun n => q.body.apply (call (quiet rules) n) n c) (.success x.unwrap e none) := by
  rw [separated_body hq]
  refine comes_map (h.pair hs.gathered) rfl ?_
  rw [components_concat_single v rfl]
  rw [← tupleOf_components hv] at hf
  exact comes_collectSeparated hf

/-- Without an item there is nothing. -/
theorem comes_separated_failure {g : Value P} (hq : p.separated s g = .ok q)
    (h : Declines rules p c) :
    Comes (fun n => q.body.apply (call (quiet rules) n) n c) .failure := by
  rw [separated_body hq]
  exact comes_map_failure h.pair

/-! ## Operands with operators -/

omit [Primitive P] in
/-- What a chain from the left is made of. -/
theorem chainLeft_body [Labelled P] (hq : p.chainLeft s = .ok q) :
    q.body = .map (sequenced [p, (sequenced [s, p]).repeat0 gathered])
      (.foldl (.action .stepLeft)) := by
  obtain ⟨step, hstep, hq⟩ := exists_ok_of_bind hq
  obtain ⟨row, hrow, hq⟩ := exists_ok_of_bind hq
  rw [eq_sequenced_of_sequence hstep] at hrow
  rw [eq_sequenced_of_sequence hrow] at hq
  rw [(map_eq_ok hq).2]
  rfl

omit [Primitive P] in
/-- What a chain from the right is made of. -/
theorem chainRight_body [Labelled P] (hq : p.chainRight s = .ok q) :
    q.body = .map (sequenced [(sequenced [p, s]).repeat0 gathered, p])
      (.foldr (.action .stepRight)) := by
  obtain ⟨step, hstep, hq⟩ := exists_ok_of_bind hq
  obtain ⟨row, hrow, hq⟩ := exists_ok_of_bind hq
  rw [eq_sequenced_of_sequence hstep] at hrow
  rw [eq_sequenced_of_sequence hrow] at hq
  rw [(map_eq_ok hq).2]
  rfl

end

/-- **Steps of a chain from the left**: each applies its function to what has come so far and to its
operand. -/
inductive Folds (rules : String → Option (Value P)) :
    Value P → List (Value P) → Value P → Prop
  | nil {x} : Folds rules x [] x
  | cons {f i x y z w items} (h : Returns rules f [x, y] (.ok z)) (hs : Folds rules z items w) :
    Folds rules x (.composite [.callable f i, y] none :: items) w

/-- **Steps of a chain from the right**: each applies its function to its operand and to what comes
of those behind it. -/
inductive FoldsRight (rules : String → Option (Value P)) :
    List (Value P) → Value P → Value P → Prop
  | nil {x} : FoldsRight rules [] x x
  | cons {f i x y z w items} (hs : FoldsRight rules items x z)
      (h : Returns rules f [y, z] (.ok w)) :
    FoldsRight rules (.composite [y, .callable f i] none :: items) x w

section

variable {p q s : Parser P} {c d e w x y z : Value P} {f : Callable P} {i : Identity}
  {items : List (Value P)}

omit [Primitive P] in
/-- One of two components is read. -/
theorem comes_readItem (y z : Value P) :
    Comes (fun _ => (composite [y, z] none).readItem 0) y ∧
      Comes (fun _ => (composite [y, z] none).readItem 1) z :=
  ⟨(comes_pure y).bind (comes_own y), (comes_pure z).bind (comes_own z)⟩

theorem comes_stepLeft (h : Returns rules f [x, y] (.ok z)) :
    Comes (fun n => call (quiet rules) n (.action .stepLeft)
      [x, composite [.callable f i, y] none]) z :=
  comes_action ((comes_readItem _ y).1.bind ((comes_readItem _ y).2.bind h.comes))

theorem comes_stepRight (h : Returns rules f [y, x] (.ok z)) :
    Comes (fun n => call (quiet rules) n (.action .stepRight)
      [composite [y, .callable f i] none, x]) z :=
  comes_action ((comes_readItem y _).2.bind ((comes_readItem y _).1.bind h.comes))

theorem Folds.comes (h : Folds rules x items w) :
    Comes (fun n => call (quiet rules) n (.action (.foldLeft (.action .stepLeft)))
      [x, .list items none]) w := by
  have steps : Comes (fun n => items.foldlM (fun acc step =>
      call (quiet rules) n (.action .stepLeft) [acc, step]) x) w := by
    induction h with
    | nil => exact comes_pure _
    | cons h _ ih =>
      simp only [List.foldlM_cons]
      exact (comes_stepLeft h).bind ih
  exact comes_action (Comes.bind ((comes_pure items).bind (comes_ownAll items)) steps)

theorem FoldsRight.comes (h : FoldsRight rules items x w) :
    Comes (fun n => call (quiet rules) n (.action (.foldRight (.action .stepRight)))
      [.list items none, x]) w := by
  have steps : Comes (fun n => items.reverse.foldlM (fun acc step =>
      call (quiet rules) n (.action .stepRight) [step, acc]) x) w := by
    -- the last step comes first, so what is in front of it is done afterwards
    simp only [List.foldlM_reverse]
    induction h with
    | nil => exact comes_pure _
    | cons _ h ih =>
      simp only [List.foldrM_cons]
      exact ih.bind (comes_stepRight h)
  have read : Comes (fun _ => ((list items none).readReversed : Run Unit P _)) items.reverse := by
    simp only [readReversed_silent (elements_list items none)]
    exact comes_pure _
  exact comes_action (read.bind steps)

/-- **An operand and any number of steps** are folded from the left. -/
theorem comes_chainLeft {vs : List (Value P × Value P)} (hq : p.chainLeft s = .ok q)
    (h : Matches rules p c x d)
    (hs : Streak (Matches rules (sequenced [s, p])) (Declines rules (sequenced [s, p])) d vs e)
    (hx : x.isComposite = false) (hf : Folds rules x (Streak.values vs) w) :
    Comes (fun n => q.body.apply (call (quiet rules) n) n c) (.success w.unwrap e none) := by
  rw [chainLeft_body hq]
  refine comes_map (h.pair hs.gathered) rfl ?_
  rw [concat_pair hx rfl]
  exact hf.comes

/-- Without an operand there is nothing. -/
theorem comes_chainLeft_failure (hq : p.chainLeft s = .ok q) (h : Declines rules p c) :
    Comes (fun n => q.body.apply (call (quiet rules) n) n c) .failure := by
  rw [chainLeft_body hq]
  exact comes_map_failure h.pair

/-- **Any number of steps and an operand** are folded from the right. -/
theorem comes_chainRight {vs : List (Value P × Value P)} (hq : p.chainRight s = .ok q)
    (hs : Streak (Matches rules (sequenced [p, s])) (Declines rules (sequenced [p, s])) c vs d)
    (h : Matches rules p d x e) (hx : x.isComposite = false)
    (hf : FoldsRight rules (Streak.values vs) x w) :
    Comes (fun n => q.body.apply (call (quiet rules) n) n c) (.success w.unwrap e none) := by
  rw [chainRight_body hq]
  refine comes_map (hs.gathered.pair h) rfl ?_
  rw [concat_pair rfl hx]
  exact hf.comes

/-- Without an operand behind the steps there is nothing. -/
theorem comes_chainRight_failure {vs : List (Value P × Value P)} (hq : p.chainRight s = .ok q)
    (hs : Streak (Matches rules (sequenced [p, s])) (Declines rules (sequenced [p, s])) c vs d)
    (h : Declines rules p d) :
    Comes (fun n => q.body.apply (call (quiet rules) n) n c) .failure := by
  rw [chainRight_body hq]
  exact comes_map_failure (hs.gathered.pair_declines h)

end

end ParserAlgebra
