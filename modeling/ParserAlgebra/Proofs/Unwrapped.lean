import ParserAlgebra.Proofs.WellShaped

/-!
# Proofs/Unwrapped — values that are as unwrapped as can be

    v.unwrap = v   ⟹   v ──components──▸ [x₁, …, xₙ] ──tupleOf, concat──▸ v, as a new object

A composite that does not hold a single component is opened and put together again without loss,
also if its members are composites themselves: only the outermost is opened.  What comes back is a
new object, so it is the same value but for the identity of that composite (`anew`).  Composites
without components vanish next to it.

Many such values are put together like lists: only their components count, in their order, and it
does not matter which of them were put together before (`concat_map_concat`).
-/

namespace ParserAlgebra.Value

variable {P : Type}

/-- **The value as a sequence hands it on**: a composite is a new one. -/
def anew : Value P → Value P
  | composite xs _ => composite xs none
  | x => x

theorem anew_of_isComposite {v : Value P} (h : v.isComposite = false) : v.anew = v := by
  cases v with
  | composite xs _ => contradiction
  | _ => rfl

@[simp] theorem components_anew (v : Value P) : v.anew.components = v.components := by
  cases v <;> rfl

@[simp] theorem isComposite_anew (v : Value P) : v.anew.isComposite = v.isComposite := by
  cases v <;> rfl

@[simp] theorem anew_anew (v : Value P) : v.anew.anew = v.anew := by
  cases v <;> rfl

/-- Unwrapping leaves no composite that holds a single component. -/
theorem unwrap_ne_singleton (v x : Value P) (i : Identity) : v.unwrap ≠ composite [x] i := by
  fun_induction unwrap v with
  | case1 y _ ih => exact ih
  | case2 y h =>
    rintro rfl
    exact h _ _ rfl

/-- A composite that stays as it is does not hold a single component. -/
theorem length_ne_one_of_unwrap {xs : List (Value P)} {i : Identity}
    (h : (composite xs i).unwrap = composite xs i) : xs.length ≠ 1 := by
  intro hl
  obtain ⟨x, rfl⟩ := List.length_eq_one_iff.1 hl
  exact unwrap_ne_singleton _ _ _ h

/-- **A value cannot be unwrapped** if it is no composite, or one that does not hold a single
component. -/
theorem unwrap_eq_self {v : Value P} :
    v.unwrap = v ↔ (v.isComposite = true → v.components.length ≠ 1) := by
  refine ⟨fun h hv => ?_, fun h => ?_⟩
  · cases v with
    | composite xs i => exact length_ne_one_of_unwrap h
    | _ => contradiction
  · cases hv : v.isComposite with
    | false => exact unwrap_of_isComposite hv
    | true =>
      match v, h hv with
      | composite [] i, _ => exact unwrap_composite_nil i
      | composite (x :: y :: xs) i, _ => exact unwrap_composite_cons_cons x y xs i

/-- A new value is as unwrapped as the old one. -/
theorem unwrap_anew {v : Value P} (h : v.unwrap = v) : v.anew.unwrap = v.anew := by
  rw [unwrap_eq_self, isComposite_anew, components_anew]
  exact unwrap_eq_self.1 h

/-- Numbering unwraps nothing. -/
theorem unwrap_numbered {σ : Type} [Supply σ] {v : Value P} (h : v.unwrap = v) (s : σ) :
    (v.numbered s).1.unwrap = (v.numbered s).1 := by
  rw [unwrap_eq_self, isComposite_numbered, length_components_numbered]
  exact unwrap_eq_self.1 h

section

variable {v : Value P} (h : v.unwrap = v)

include h

/-- An unwrapped value is no composite, or one that does not hold a single component. -/
theorem isComposite_or_length_ne_one :
    v.isComposite = false ∨ ∃ xs i, v = composite xs i ∧ xs.length ≠ 1 := by
  cases v with
  | composite xs i => exact .inr ⟨xs, i, rfl, length_ne_one_of_unwrap h⟩
  | _ => exact .inl rfl

/-- **The components of an unwrapped value are written as that value.** -/
theorem tupleOf_components : tupleOf v.components = v.anew := by
  obtain hv | ⟨xs, i, rfl, hl⟩ := isComposite_or_length_ne_one h
  · rw [components_of_isComposite hv, tupleOf_singleton, anew_of_isComposite hv]
  · match xs, hl with
    | [], _ => rfl
    | _ :: _ :: _, _ => rfl

/-- So is a composite of them, once it is unwrapped. -/
theorem unwrap_composite_components : (composite v.components none).unwrap = v.anew := by
  obtain hv | ⟨xs, i, rfl, hl⟩ := isComposite_or_length_ne_one h
  · rw [components_of_isComposite hv, unwrap_composite_singleton, h, anew_of_isComposite hv]
  · match xs, hl with
    | [], _ => exact unwrap_composite_nil none
    | x :: y :: xs, _ => exact unwrap_composite_cons_cons x y xs none

/-- **No components behind a value vanish.** -/
theorem concat_empty_right (i : Identity) : concat [v, composite [] i] = v.anew := by
  rw [← unwrap_composite_components h]
  simp [concat]

/-- No components in front of a value vanish. -/
theorem concat_empty_left (i : Identity) : concat [composite [] i, v] = v.anew := by
  rw [← unwrap_composite_components h]
  simp [concat]

omit h in
/-- What comes in front of a single component are the components of a value, however many. -/
theorem components_concat_single (v : Value P) {x : Value P} (hx : x.isComposite = false) :
    (concat [v, x]).components = v.components ++ [x] := by
  have parts : [v, x].flatMap components = v.components ++ [x] := by
    simp [components_of_isComposite hx]
  rw [concat, parts]
  cases v.components with
  | nil =>
    rw [List.nil_append, unwrap_composite_singleton, unwrap_of_isComposite hx,
      components_of_isComposite hx]
  | cons y ys =>
    cases ys with
    | nil => rw [List.singleton_append, unwrap_composite_cons_cons, components_composite]
    | cons z ys =>
      rw [List.cons_append, List.cons_append, unwrap_composite_cons_cons, components_composite]

end

/-! ## Many unwrapped values -/

/-- **A component that is all that unwrapped values have** is one of these values. -/
theorem isComposite_of_flatMap_singleton {vs : List (Value P)} (h : ∀ v ∈ vs, v.unwrap = v)
    {x : Value P} (hx : vs.flatMap components = [x]) : x.isComposite = false := by
  obtain ⟨v, hv, hmem⟩ := List.mem_flatMap.1 (hx ▸ List.mem_singleton_self x)
  have few : v.components.length ≤ 1 := by
    rw [← List.length_singleton (a := x), ← hx, List.flatMap]
    exact (List.sublist_flatten_of_mem (List.mem_map_of_mem hv)).length_le
  obtain hsimple | ⟨xs, i, rfl, hl⟩ := isComposite_or_length_ne_one (h v hv)
  · rw [components_of_isComposite hsimple, List.mem_singleton] at hmem
    rwa [hmem]
  · have many := List.length_pos_of_mem hmem
    rw [components_composite] at few many
    omega

/-- **What is put together of unwrapped values**, as a composite: their components one after the
other, and nothing below them opened. -/
theorem asComposite_concat {vs : List (Value P)} (h : ∀ v ∈ vs, v.unwrap = v) :
    (concat vs).asComposite = composite (vs.flatMap components) none := by
  unfold concat
  match hxs : vs.flatMap components with
  | [] =>
    rw [unwrap_composite_nil]
    rfl
  | [x] =>
    have simple := isComposite_of_flatMap_singleton h hxs
    rw [unwrap_composite_singleton, unwrap_of_isComposite simple, asComposite_of_isComposite simple]
  | x :: y :: xs =>
    rw [unwrap_composite_cons_cons]
    rfl

/-- **What is put together of unwrapped values has all their components.** -/
theorem components_concat_of_unwrap {vs : List (Value P)} (h : ∀ v ∈ vs, v.unwrap = v) :
    (concat vs).components = vs.flatMap components := by
  rw [← components_asComposite, asComposite_concat h, components_composite]

/-- **Blocks are put together one by one, and then all of them.** -/
theorem concat_map_concat {blocks : List (List (Value P))}
    (h : ∀ v ∈ blocks.flatten, v.unwrap = v) :
    concat (blocks.map concat) = concat blocks.flatten := by
  have parts : (blocks.map concat).flatMap components = blocks.flatten.flatMap components := by
    induction blocks with
    | nil => rfl
    | cons block blocks ih =>
      rw [List.flatten_cons] at h
      have first := components_concat_of_unwrap fun v hv => h v (List.mem_append_left _ hv)
      have rest := ih fun v hv => h v (List.mem_append_right _ hv)
      rw [List.map_cons, List.flatMap_cons, first, rest, List.flatten_cons, List.flatMap_append]
  rw [concat, concat, parts]

/-- No components vanish between any values. -/
theorem concat_empty_between (us vs : List (Value P)) (i : Identity) :
    concat (us ++ composite [] i :: vs) = concat (us ++ vs) := by
  simp [concat]

/-- **Unwrapped values are put together like lists**: what they come to is unwrapped again and holds
their components one after the other, as many as there are, opening none.  It does not matter into
which blocks they are cut on the way, empty blocks included.  Nothing changes by a composite without
components, and next to one any of the values is left as it is, as a new object. -/
theorem concat_appends_components {vs : List (Value P)} (h : ∀ v ∈ vs, v.unwrap = v) :
    (concat vs).asComposite = composite (vs.flatMap fun v => v.asComposite.components) none ∧
    (concat vs).asComposite.components.length =
      (vs.map fun v => v.asComposite.components.length).foldr (· + ·) 0 ∧
    (concat vs).unwrap = concat vs ∧
    (∀ blocks : List (List (Value P)), blocks.flatten = vs →
      concat (blocks.map concat) = concat vs) ∧
    (∀ us ws i, us ++ ws = vs → concat (us ++ composite [] i :: ws) = concat vs) ∧
    ∀ v ∈ vs, ∀ i, concat [composite [] i, v] = v.anew ∧ concat [v, composite [] i] = v.anew := by
  simp only [components_asComposite]
  refine ⟨asComposite_concat h, ?_, unwrap_unwrap _, ?_, ?_, fun v hv i => ?_⟩
  · rw [components_concat_of_unwrap h, List.length_flatMap, List.sum]
  · rintro blocks rfl
    exact concat_map_concat h
  · rintro us ws i rfl
    exact concat_empty_between us ws i
  · exact ⟨concat_empty_left (h v hv) i, concat_empty_right (h v hv) i⟩

/-- A number, a composite with a composite of one component inside, and one without components: the
inner composite is a component and stays closed, however the three are cut into blocks. -/
theorem nested_composite_stays_closed :
    let inner : Value Empty := composite [ofInt 3] none
    let pair : Value Empty := composite [ofInt 2, inner] none
    let empty : Value Empty := composite [] none
    (∀ v ∈ [ofInt 1, pair, empty], v.unwrap = v) ∧
    (concat [ofInt 1, pair, empty]).asComposite = composite [ofInt 1, ofInt 2, inner] none ∧
    concat [concat [ofInt 1], concat [], concat [pair, empty]] = concat [ofInt 1, pair, empty] ∧
    concat [empty, ofInt 1] = ofInt 1 := by
  intro inner pair empty
  have unwrapped : ∀ v ∈ [ofInt 1, pair, empty], v.unwrap = v := by
    simp [unwrap_of_isComposite (v := (ofInt 1 : Value Empty)) rfl, pair, empty]
  obtain ⟨whole, -, -, cut, -, neutral⟩ := concat_appends_components unwrapped
  exact ⟨unwrapped, whole, cut [[ofInt 1], [], [pair, empty]] rfl,
    (neutral (ofInt 1) List.mem_cons_self none).1⟩

end ParserAlgebra.Value
