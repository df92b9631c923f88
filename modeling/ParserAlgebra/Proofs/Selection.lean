import ParserAlgebra.Proofs.Arity
import ParserAlgebra.Proofs.Arity.Counted
import ParserAlgebra.Proofs.Ends.Results

/-!
# Proofs/Selection — what is selected from a value

    [x₀, x₁, x₂]   ──2, 0──▸   [x₂, x₀]   ──1──▸   x₀

A selection takes the components at some indices and writes them as a value again.  If it is a
single one it is not wrapped, and what selects from it again finds it as the only component.  So
selecting twice is selecting once, at the indices that were selected (`pick_pick`).

Behind a parser whose values fit its arity, a selection within bounds neither raises nor refuses
anything: what the two are read as is what the parser is read as, with something else picked.
-/

namespace ParserAlgebra

open Value ParserAlgebra.Parser ParserAlgebra.Run

variable {P : Type} {is js : List Nat} {v : Value P} {n : Int}

/-! ## Components picked -/

/-- The components at some indices, as far as they are there. -/
def Value.picked (is : List Nat) (v : Value P) : List (Value P) :=
  is.map fun i => v.components.getD i .null

/-- **What is selected from a value.** -/
def Value.pick (is : List Nat) (v : Value P) : Value P := tupleOf (picked is v)

/-- The indices that a second selection finds at the first one's. -/
def Mapper.through (is js : List Nat) : List Nat := js.map fun j => is.getD j 0

theorem picked_through (hj : ∀ j ∈ js, j < is.length) :
    picked (Mapper.through is js) v = js.map fun j => (picked is v).getD j .null := by
  rw [picked, Mapper.through, List.map_map]
  refine List.map_congr_left fun j h => ?_
  have hj := hj j h
  simp [picked, hj]

section

variable (hv : Flat v.components) (hi : ∀ i ∈ is, i < v.components.length)

include hi

/-- Indices that are all inside pick what is there. -/
theorem mapM_eq_picked : (is.mapM fun i => v.components[i]?) = some (picked is v) := by
  induction is with
  | nil => rfl
  | cons i is ih =>
    obtain ⟨h, his⟩ := List.forall_mem_cons.1 hi
    rw [List.mapM_cons, ih his, List.getElem?_eq_getElem h]
    simp [picked, h]

include hv

theorem flat_picked : Flat (picked is v) := hv.of_subset (Mapper.subset_of_mapM (mapM_eq_picked hi))

theorem components_pick : (pick is v).components = picked is v :=
  components_tupleOf (flat_picked hv hi)

/-- As many components are picked as there are indices. -/
theorem fits_pick : (pick is v).Fits (some (.ofInt is.length)) := by
  have fits := fits_tupleOf (flat_picked hv hi)
  rwa [picked, List.length_map] at fits

/-- **What is picked from what was picked** was there before. -/
theorem pick_pick (hj : ∀ j ∈ js, j < is.length) :
    pick js (pick is v) = pick (Mapper.through is js) v := by
  rw [pick, picked, components_pick hv hi, pick, picked_through hj]

end

/-- **All components in order** are the value itself. -/
theorem pick_range (hv : v.unwrap = v) : pick (List.range v.components.length) v = v.anew := by
  have all : picked (List.range v.components.length) v = v.components := by
    refine List.ext_getElem (by simp [picked]) fun i _ hi => ?_
    simp [picked, hi]
  rw [pick, all, tupleOf_components hv]

/-! ## Parsers behind which components are selected -/

section

variable {p q : Parser P}

/-- **A selection**, if it is admitted behind the parser. -/
def Parser.selecting [Labelled P] (p : Parser P) (is : List Nat) : Except (Error P) (Parser P) :=
  Mapper.select? is >>= p.map

/-- What a selection requires lies within bounds if all its indices do. -/
theorem requires_select_le_iff (hi : is ≠ []) :
    ((Mapper.select is : Mapper P).requires : Int) ≤ n ↔ ∀ i ∈ is, (i : Int) < n := by
  constructor
  · intro h i hmem
    have below := Mapper.lt_requires_select (P := P) hmem
    omega
  · intro h
    obtain ⟨i, is, rfl⟩ := List.exists_cons_of_ne_nil hi
    have first := h i List.mem_cons_self
    have bound := Mapper.requires_select_le (P := P) (n := n.toNat) (by omega) fun j hj => by
      have := h j hj
      omega
    omega

variable [Labelled P]

/-- With at least one index there is such a mapper. -/
theorem selecting_eq_map (hi : is ≠ []) : p.selecting is = p.map (.select is) := by
  obtain ⟨i, is, rfl⟩ := List.exists_cons_of_ne_nil hi
  rfl

/-- **A selection is admitted if all its indices are inside.** -/
theorem selecting_eq_ok_iff (hn : p.arity = some n) (hi : is ≠ []) :
    p.selecting is = .ok q ↔ (∀ i ∈ is, (i : Int) < n) ∧ q = p.mapped (.select is) := by
  rw [selecting_eq_map hi, ← requires_select_le_iff (P := P) hi, ← checkArity_eq_ok_iff hn]
  refine ⟨map_eq_ok, ?_⟩
  rintro ⟨admitted, rfl⟩
  simp only [map, admitted]
  rfl

@[simp] theorem arity_mapped_select : (p.mapped (.select is)).arity = some (is.length : Int) := rfl

end

/-! ## What is selected at one cursor -/

/-- What lies within the arity is there in each of the values. -/
theorem Value.Fits.inside {p : Parser P} (hv : v.Fits p.declared)
    (hn : p.arity = some n) (hi : ∀ i ∈ is, (i : Int) < n) : ∀ i ∈ is, i < v.components.length := by
  intro i h
  have length := hv.length_eq hn
  have below := hi i h
  omega

section

variable [Primitive P] {rules : String → Option (Value P)} {p : Parser P} {c d : Value P}

/-- **The values at a cursor fit the declared arity.** -/
abbrev Parser.FitsAt (rules : String → Option (Value P)) (p : Parser P) (c : Value P) : Prop :=
  p.YieldsAt rules (Fits p.declared) c

/-- A selection that is within bounds picks what it says. -/
theorem comes_select (hi : ∀ i ∈ is, i < v.components.length) :
    Comes (fun n => (Mapper.select is).apply (call (quiet rules) n) v.components) (pick is v) := by
  simp only [Mapper.apply, Mapper.choose_eq, mapM_eq_picked hi]
  exact comes_pure _

variable (hp : p.FitsAt rules c) (hn : p.arity = some n) (hi : ∀ i ∈ is, (i : Int) < n)

include hp hn hi

/-- **A selection behind a parser** picks from what the parser is read as, and does nothing else. -/
theorem alike_run_select : Alike (fun n => (p.mapped (.select is)).run (quiet rules) n c) fun n =>
    (reading rules p c n).onValue (pick is) >>= fun m => pure m.result := by
  refine alike_run_mapped_at hp rfl fun v hv => ?_
  have inside := hv.inside hn hi
  exact ⟨_, comes_select inside, (fits_pick hv.wellShaped.flat inside).wellShaped.unwrap_eq⟩

theorem alike_reading_select : Alike (reading rules (p.mapped (.select is)) c) fun n =>
    (reading rules p c n).onValue (pick is) :=
  alike_reading_of_result (grows_reading.onValue _) (alike_run_select hp hn hi)

/-- Its values fit what it is declared to produce. -/
theorem fitsAt_select : (p.mapped (.select is)).FitsAt rules c := by
  refine yieldsAt_of_result (grows_reading.onValue _) (alike_run_select hp hn hi) fun w d hw => ?_
  obtain ⟨v, hv, rfl⟩ := (ends_onValue_some grows_reading).1 hw
  have fits := hp.of_ends hv
  exact fits_pick fits.wellShaped.flat (fits.inside hn hi)

/-- It raises what the parser raises. -/
theorem raises_select_iff {e : Error P} :
    Raises (fun n => (p.mapped (.select is)).run (quiet rules) n c) e ↔
      Raises (fun n => p.run (quiet rules) n c) e :=
  (raises_of_result (grows_reading.onValue _) (alike_run_select hp hn hi)).trans
    ((raises_onValue grows_reading).trans hp.raises_iff)

end

end ParserAlgebra
