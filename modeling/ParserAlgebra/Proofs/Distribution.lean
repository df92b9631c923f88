import Mathlib.Algebra.GroupWithZero.Nat
import Mathlib.Data.List.SplitLengths
import ParserAlgebra.Proofs.Arity
import ParserAlgebra.Proofs.Arity.Counted
import ParserAlgebra.Proofs.Ends.Yields
import ParserAlgebra.Proofs.Finds.General

/-!
# Proofs/Distribution — mapping before sequencing is mapping after it

    p₁, …, pₙ ──sequence──▸ [x₁ … │ … │ … xₘ] ──blocks──▸ [f₁(x₁, …), …, fₙ(…, xₘ)]
    p₁, …, pₙ ──map each──▸ f₁(x₁, …), …, fₙ(…, xₘ) ──sequence──▸ the same

A function for one member is called with the components of its value; a function for the whole
sequence is called with all components, one after the other.  Where one member's end and the next
one's begin cannot be seen from them.  It can be seen from the arities, if these are exact: then the
components fall into blocks of these sizes (`splitLengths_components`), be they empty, one value
that was never wrapped, or many.

Both ways are compared with what the members themselves are read as in a row, so it is the same
member that fails or raises.
-/

namespace ParserAlgebra

open Value ParserAlgebra.Parser ParserAlgebra.Run

variable {P : Type} [Primitive P] {rules : String → Option (Value P)} {on : Set (Value P)}
  {c d v : Value P}

/-- **A member of a sequence, with a function for it.**  The member has an exact arity, and its
values are well-shaped; called with that many components, the function answers with a value that is
no composite. -/
structure Stage (rules : String → Option (Value P)) (on : Set (Value P)) where
  parser : Parser P
  size : Nat
  function : Callable P
  apply : List (Value P) → Value P
  name_isText : parser.name.isText = true
  arity_eq : parser.arity = some (size : Int)
  yields : parser.Yields rules on fun v => v.Fits parser.declared
  plain : ∀ m, function ≠ .mapper m
  returns : ∀ xs, Flat xs → xs.length = size → Returns rules function xs (.ok (apply xs))
  single : ∀ xs, Flat xs → xs.length = size → (apply xs).isComposite = false

namespace Stage

variable (s : Stage rules on) {ss : List (Stage rules on)} {vs : List (Value P)}

/-- The member behind which its function is put. -/
abbrev mapped : Parser P := s.parser.mapped (.total s.function (some (.ofInt 1)))

theorem counted : s.parser.Counted where
  name_isText := s.name_isText
  exists_count x hx := by
    obtain ⟨k, hk, hw⟩ := Option.bind_eq_some_iff.1 s.arity_eq
    obtain ⟨y, hy, hk⟩ := Option.bind_eq_some_iff.1 hk
    cases hx.symm.trans hy
    exact ⟨k, s.size, hk, hw⟩

/-- A function can always be put behind its member. -/
theorem map_function : s.parser.map (.ofCallable s.function) = .ok s.mapped := by
  have plain : Mapper.ofCallable s.function = .total s.function (some (.ofInt 1)) := by
    match hf : s.function with
    | .mapper m => exact absurd hf (s.plain m)
    | .parser _ => rfl
    | .action _ => rfl
  rw [plain]
  exact map_of_counted_of_requires s.counted rfl

/-- What fits a member has as many components as it says. -/
theorem length_of_fits (h : v.Fits s.parser.declared) : v.components.length = s.size :=
  Int.ofNat_inj.1 (h.length_eq s.arity_eq)

/-- What the function makes of the components of the member's value. -/
theorem comes_function (h : v.Fits s.parser.declared) :
    ∃ x, Comes (fun n => (Mapper.total s.function (some (.ofInt 1))).apply (call (quiet rules) n)
      v.components) x ∧ x.unwrap = s.apply v.components := by
  have flat := h.wellShaped.flat
  have size := s.length_of_fits h
  exact ⟨_, (s.returns _ flat size).comes, unwrap_of_isComposite (s.single _ flat size)⟩

/-! ## The values of all members -/

/-- **One value of each member**, with as many components as that says. -/
abbrev Fit (ss : List (Stage rules on)) (vs : List (Value P)) : Prop :=
  List.Forall₂ (fun s v => v.Fits s.parser.declared) ss vs

/-- **The functions' answers**, each from the components of its own member's value. -/
def results (ss : List (Stage rules on)) (vs : List (Value P)) : List (Value P) :=
  List.zipWith (fun s v => s.apply v.components) ss vs

/-- **The functions' answers from all components at once**, in consecutive blocks of the members'
sizes. -/
def blockwise (ss : List (Stage rules on)) (xs : List (Value P)) : List (Value P) :=
  List.zipWith apply ss ((ss.map size).splitLengths xs)

/-- **The blocks are the components of each value.** -/
theorem splitLengths_components (h : Fit ss vs) :
    (ss.map size).splitLengths (vs.flatMap components) = vs.map components := by
  induction h with
  | nil => rfl
  | @cons s v ss vs hv _ ih =>
    have front := s.length_of_fits hv
    rw [List.map_cons, List.splitLengths_cons, List.flatMap_cons, List.take_left' front,
      List.drop_left' front, ih, List.map_cons]

theorem blockwise_components (h : Fit ss vs) :
    blockwise ss (vs.flatMap components) = results ss vs := by
  rw [blockwise, splitLengths_components h, List.zipWith_map_right, results]

theorem length_results (h : Fit ss vs) : (results ss vs).length = ss.length := by
  rw [results, List.length_zipWith, h.length_eq, Nat.min_self]

theorem flat_results (h : Fit ss vs) : Flat (results ss vs) := by
  induction h with
  | nil => exact flat_nil
  | @cons s v ss vs hv _ ih =>
    exact flat_cons.2 ⟨s.single _ hv.wellShaped.flat (s.length_of_fits hv), ih⟩

/-! ## The members in a row -/

theorem yields_all : ∀ p ∈ ss.map parser, p.Yields rules on fun v => v.Fits p.declared := by
  intro p hp
  obtain ⟨s, _, rfl⟩ := List.mem_map.1 hp
  exact s.yields

theorem counted_parsers : ∀ p ∈ ss.map parser, p.Counted := by
  intro p hp
  obtain ⟨s, _, rfl⟩ := List.mem_map.1 hp
  exact s.counted

theorem counted_mapped : ∀ p ∈ ss.map mapped, p.Counted := by
  intro p hp
  obtain ⟨s, _, rfl⟩ := List.mem_map.1 hp
  exact Parser.counted_mapped s.name_isText s.function 1

/-- What is read off the members fits them. -/
theorem fit_of_ends (hc : c ∈ on) (h : Ends (row rules (ss.map parser) c) (.ok (some (vs, d)))) :
    Fit ss vs ∧ d ∈ on := by
  obtain ⟨hvs, hd⟩ := forall₂_of_ends_row yields_all hc h
  exact ⟨(List.forall₂_map_left_iff (R := fun (p : Parser P) (v : Value P) =>
    v.Fits p.declared)).1 hvs, hd⟩

/-- **What the members are read as with their functions** is what they are read as without them, and
then the functions' answers. -/
theorem alike_row_mapped (hc : c ∈ on) : Alike (row rules (ss.map mapped) c) fun n =>
    (row rules (ss.map parser) c n).onValue (results ss) := by
  induction ss generalizing c with
  | nil => exact .of_eq fun n => rfl
  | cons s ss ih =>
    have member := alike_reading_mapped s.yields rfl (fun v => s.comes_function) hc
    simp only [List.map_cons, row_cons, onValue_followed]
    refine (member.followed (g := fun n d => (row rules (ss.map parser) d n).onValue (results ss))
      grows_reading (grows_reading.onValue _) (fun d => grows_row) (fun d => grows_row.onValue _)
      (fun x d hx => ih ?_) List.cons).trans (.of_eq fun n => ?_)
    · obtain ⟨v, hv, _⟩ := (ends_onValue_some grows_reading).1 ((member _).1 hx)
      exact (s.yields.of_ends hc hv).2
    · rw [followed_onValue, followed_onValue_right]
      rfl

/-- **What the members are read as, and what their functions answer**, as one value. -/
def answers (ss : List (Stage rules on)) (c : Value P) (n : Nat) :
    Run Unit P (Reading P (Value P)) :=
  (row rules (ss.map parser) c n).onValue fun vs => tupleOf (results ss vs)

theorem grows_answers : Grows (answers ss c) := grows_row.onValue _

/-- The components of that value are the answers, one for each member. -/
theorem components_of_ends_answers (hc : c ∈ on) (h : Ends (answers ss c) (.ok (some (v, d)))) :
    (Flat v.components ∧ v.components.length = ss.length) ∧ d ∈ on := by
  obtain ⟨vs, hvs, rfl⟩ := (ends_onValue_some grows_row).1 h
  obtain ⟨fit, hd⟩ := fit_of_ends hc hvs
  have flat := flat_results fit
  rw [components_tupleOf flat]
  exact ⟨⟨flat, length_results fit⟩, hd⟩

/-! ## Both ways -/

/-- **Mapped one by one and then sequenced**, the members come to the functions' answers. -/
theorem alike_run_before {before : Parser P} (h : sequence (ss.map mapped) = .ok before)
    (hc : c ∈ on) : Alike (fun n => before.run (quiet rules) n c) fun n =>
      answers ss c n >>= fun m => pure m.result := by
  obtain hone | ⟨_, rfl⟩ := sequence_eq_ok h
  · obtain ⟨s, rfl, rfl⟩ := List.map_eq_singleton_iff.1 hone
    refine (alike_run_mapped s.yields rfl (fun v => s.comes_function) hc).trans (.of_eq fun n => ?_)
    rw [answers, List.map_singleton, row_singleton, onValue_onValue]
    rfl
  · have grows : Grows fun n => (row rules (ss.map parser) c n).onValue (results ss) :=
      grows_row.onValue _
    refine alike_run_sequenced.trans (Alike.result (grows_row.onValue _) grows_answers ?_)
    refine ((alike_row_mapped hc).onValue grows_row grows fun _ _ _ => rfl).trans ?_
    simp only [onValue_onValue]
    refine (Alike.refl _).onValue grows_row grows_row fun vs d hm => ?_
    exact concat_of_flat (flat_results (fit_of_ends hc hm).1)

section

variable {flat : Parser P} (h : sequence (ss.map parser) = .ok flat)

include h

/-- The sequence of the members is as exact as they are. -/
theorem yields_flat : flat.Yields rules on fun v => v.Fits flat.declared := by
  obtain hone | ⟨_, rfl⟩ := sequence_eq_ok h
  · exact yields_all flat (hone ▸ List.mem_singleton_self flat)
  · exact yields_sequenced yields_all fun vs => fits_concat

/-- **Sequenced and then mapped block by block**, they come to the same answers. -/
theorem alike_run_after {g : Callable P} (hflat : flat.arity = some ((ss.map size).sum : Int))
    (hg : ∀ xs, Flat xs → xs.length = (ss.map size).sum →
      Returns rules g xs (.ok (tupleOf (blockwise ss xs)))) (a : Option (Value P)) (hc : c ∈ on) :
    Alike (fun n => (flat.mapped (.total g a)).run (quiet rules) n c) fun n =>
      answers ss c n >>= fun m => pure m.result := by
  have unwraps : ∀ p ∈ ss.map parser, p.Unwraps rules on := fun p hp =>
    (yields_all p hp).mono fun v hv => hv.wellShaped.unwrap_eq
  have called (v : Value P) (hv : v.Fits flat.declared) :
      ∃ x, Comes (fun n => (Mapper.total g a).apply (call (quiet rules) n) v.components) x ∧
        x.unwrap = (tupleOf (blockwise ss v.components)).unwrap :=
    ⟨_, (hg _ hv.wellShaped.flat (Int.ofNat_inj.1 (hv.length_eq hflat))).comes, rfl⟩
  refine (alike_run_mapped (yields_flat h) rfl called hc).trans
    (Alike.result (grows_reading.onValue _) grows_answers ?_)
  -- the components of the whole sequence are those of its members, also if that is a single one
  have opened := (alike_parts_of_sequence h unwraps hc).onValue grows_parts grows_parts
    (k := fun xs => (tupleOf (blockwise ss xs)).unwrap) fun _ _ _ => rfl
  rw [parts_singleton] at opened
  simp only [parts, onValue_onValue] at opened
  refine opened.trans ((Alike.refl _).onValue grows_row grows_row fun vs d hm => ?_)
  obtain ⟨fit, _⟩ := fit_of_ends hc hm
  rw [blockwise_components fit]
  exact (wellShaped_tupleOf (flat_results fit)).unwrap_eq

end

/-! ## Selections -/

/-- What is selected from a value, if it is all there. -/
def selected (indices : List Nat) (v : Value P) : Value P :=
  tupleOf ((indices.mapM fun i => v.components[i]?).getD [])

section

variable {indices : List Nat} (hi : ∀ i ∈ indices, i < ss.length)

include hi

/-- A selection that is within bounds is made, and nothing of it is unwrapped. -/
theorem comes_selected (hv : Flat v.components ∧ v.components.length = ss.length) :
    ∃ x, Comes (fun n => (Mapper.select indices).apply (call (quiet rules) n) v.components) x ∧
      x.unwrap = selected indices v := by
  obtain ⟨ys, hys⟩ := Mapper.exists_mapM fun i h => hv.2 ▸ hi i h
  refine ⟨tupleOf ys, ?_, ?_⟩
  · simp only [Mapper.apply, Mapper.choose_eq, hys]
    exact comes_pure _
  · rw [selected, hys]
    exact (wellShaped_tupleOf (hv.1.of_subset (Mapper.subset_of_mapM hys))).unwrap_eq

omit hi in
theorem selected_results {ys : List (Value P)} (h : Fit ss vs)
    (hys : (indices.mapM fun i => (results ss vs)[i]?) = some ys) :
    selected indices (tupleOf (results ss vs)) = tupleOf ys := by
  rw [selected, components_tupleOf (flat_results h), hys, Option.getD_some]

/-- **A selection from the answers** is made of the answers at its indices. -/
theorem matches_selected_iff {before : Parser P} (h : sequence (ss.map mapped) = .ok before)
    (hc : c ∈ on) : Matches rules (before.mapped (.select indices)) c v d ↔
      ∃ vs ys, Row rules (ss.map parser) c vs d ∧
        (indices.mapM fun i => (results ss vs)[i]?) = some ys ∧ v = tupleOf ys := by
  have yields : before.Yields rules on fun v =>
      Flat v.components ∧ v.components.length = ss.length :=
    yields_of_result (fun _ => grows_answers) (fun c hc => alike_run_before h hc)
      fun c hc v d => components_of_ends_answers hc
  have read : Alike (reading rules (before.mapped (.select indices)) c) fun n =>
      (row rules (ss.map parser) c n).onValue
        fun vs => selected indices (tupleOf (results ss vs)) := by
    refine (alike_reading_mapped yields rfl (fun v => comes_selected hi) hc).trans ?_
    refine ((alike_reading_of_result grows_answers (alike_run_before h hc)).onValue grows_reading
      grows_answers fun _ _ _ => rfl).trans (.of_eq fun n => ?_)
    rw [answers, onValue_onValue]
  rw [matches_iff_ends, read (.ok _), ends_onValue_some grows_row]
  refine exists_congr fun vs => ?_
  rw [← ends_row_iff yields_all hc]
  constructor
  · rintro ⟨hvs, rfl⟩
    obtain ⟨fit, _⟩ := fit_of_ends hc hvs
    obtain ⟨ys, hys⟩ := Mapper.exists_mapM fun i h => (length_results fit).symm ▸ hi i h
    exact ⟨ys, hvs, hys, selected_results fit hys⟩
  · rintro ⟨ys, hvs, hys, rfl⟩
    exact ⟨hvs, (selected_results (fit_of_ends hc hvs).1 hys).symm⟩

end

/-! ## The main result -/

theorem totalArity_parsers : totalArity (ss.map parser) = some ((ss.map size).sum : Int) := by
  induction ss with
  | nil => rfl
  | cons s ss ih => simp [totalArity, s.arity_eq, ih]

theorem totalArity_mapped : totalArity (ss.map mapped) = some (ss.length : Int) := by
  induction ss with
  | nil => rfl
  | cons s ss ih =>
    have one : s.mapped.arity = some 1 := rfl
    simp [totalArity, one, ih, Int.add_comm]

theorem mapM_map_function :
    (ss.mapM fun s => s.parser.map (.ofCallable s.function)) = .ok (ss.map mapped) := by
  rw [funext map_function]
  exact List.mapM_pure

/-- **Mapping before sequencing equals mapping after it.**  The members are mapped one by one and
put in a sequence, or put in a sequence that is mapped block by block; both have one component for
each member, and end in the same way on all cursors that the members stay on.  A selection behind
either is made of the answers at its indices. -/
theorem maps_before_and_after (ss : List (Stage rules on)) (hne : ss ≠ []) (g : Callable P)
    (hg : ∀ xs, Flat xs → xs.length = (ss.map size).sum →
      Returns rules g xs (.ok (tupleOf (blockwise ss xs)))) :
    ∃ before after,
      (ss.mapM (fun s => s.parser.map (.ofCallable s.function)) >>= sequence) = .ok before ∧
      (sequence (ss.map parser) >>= fun q => q.map (.total g (some (.ofInt ss.length)))) =
        .ok after ∧
      before.arity = some (ss.length : Int) ∧ after.arity = some (ss.length : Int) ∧
      (∀ c ∈ on, Alike (fun n => before.run (quiet rules) n c) fun n =>
        after.run (quiet rules) n c) ∧
      ∀ indices ≠ [], (∀ i ∈ indices, i < ss.length) → ∃ p q,
        (Mapper.select? indices >>= before.map) = .ok p ∧
        (Mapper.select? indices >>= after.map) = .ok q ∧
        ∀ c ∈ on,
          Alike (fun n => p.run (quiet rules) n c) (fun n => q.run (quiet rules) n c) ∧
          ∀ v d, Matches rules p c v d ↔ ∃ vs ys, Row rules (ss.map parser) c vs d ∧
            (indices.mapM fun i => (results ss vs)[i]?) = some ys ∧ v = tupleOf ys := by
  obtain ⟨before, hbefore, counted, arity⟩ :=
    sequence_of_counted counted_mapped (mt List.map_eq_nil_iff.1 hne)
  obtain ⟨flat, hflat, flatCounted, flatArity⟩ :=
    sequence_of_counted counted_parsers (mt List.map_eq_nil_iff.1 hne)
  rw [totalArity_mapped] at arity
  rw [totalArity_parsers] at flatArity
  have alike (c : Value P) (hc : c ∈ on) := (alike_run_before hbefore hc).trans
    (alike_run_after hflat flatArity hg (some (.ofInt ss.length)) hc).symm
  refine ⟨before, flat.mapped (.total g (some (.ofInt ss.length))), ?_, ?_, arity, rfl, alike,
    fun indices hsome hi => ?_⟩
  · rw [mapM_map_function]
    exact hbefore
  · rw [hflat]
    exact map_of_counted_of_requires flatCounted rfl
  · have enough : ((Mapper.select indices : Mapper P).requires : Int) ≤ ss.length :=
      Int.ofNat_le.2 (Mapper.requires_select_le (List.length_pos_of_ne_nil hne) hi)
    have selection : Mapper.select? indices = .ok (.select indices : Mapper P) := by
      cases indices with
      | nil => contradiction
      | cons => rfl
    rw [selection]
    have afterCounted := Parser.counted_mapped flatCounted.name_isText g ss.length
    refine ⟨_, _, map_of_counted counted fun n hn => ?_,
      map_of_counted afterCounted fun n hn => ?_,
      fun c hc => ⟨(alike c hc).mapped _, fun v d => matches_selected_iff hi hbefore hc⟩⟩
    · cases arity.symm.trans hn
      exact enough
    · cases hn
      exact enough

end Stage

/-- **A host whose functions make lists**, one of all arguments, or one of each block. -/
inductive Listing where
  | all
  | blocks (sizes : List Nat)

namespace Listing

instance : Primitive Listing where
  label
    | all => "all"
    | blocks _ => "blocks"
  call
    | all, xs => .answers (.list xs none)
    | blocks sizes, xs =>
      .answers (tupleOf ((sizes.splitLengths xs).map fun block => .list block none))

variable {rules : String → Option (Value Listing)} {on : Set (Value Listing)}

/-- A member whose components are put in a list. -/
def stage (p : Parser Listing) (size : Nat) (hn : p.name.isText = true)
    (ha : p.arity = some (size : Int)) (hp : p.Yields rules on fun v => v.Fits p.declared) :
    Stage rules on where
  parser := p
  size := size
  function := .action (.primitive .all)
  apply xs := .list xs none
  name_isText := hn
  arity_eq := ha
  yields := hp
  plain := nofun
  returns _ _ _ := (comes_action (comes_pure _)).returns
  single _ _ _ := rfl

end Listing

/-- The letters of a text are put in lists: two of them, none, and one.  Whether each list is made
by itself or all are made at once, the last and the middle one can be selected from them. -/
theorem letters_in_lists :
    let rules : String → Option (Value Listing) := fun _ => none
    let o : Origin := ⟨none, true⟩
    let on : Set (Value Listing) := spots o fun t => t.isComposite = false
    let couple : Parser Listing := sequenced [one, one]
    let g : Callable Listing := .action (.primitive (.blocks [2, 0, 1]))
    ∃ ss : List (Stage rules on),
      ss.map Stage.parser = [couple, (one : Parser Listing).skipped, one] ∧ ss ≠ [] ∧
      (∀ xs, Flat xs → xs.length = (ss.map Stage.size).sum →
        Returns rules g xs (.ok (tupleOf (Stage.blockwise ss xs)))) ∧
      ∃ after p, (sequence [couple, (one : Parser Listing).skipped, one] >>= fun q =>
          q.map (.total g (some (.ofInt 3)))) = .ok after ∧
        (Mapper.select? [2, 1] >>= after.map) = .ok p ∧
        Matches rules p (spot o [] (characters "wxyz"))
          (.composite [.list [.ofText "z"] none, .list [] none] none)
          (spot o (characters "zyxw") []) := by
  intro rules o on couple g
  have letter : (one : Parser Listing).Yields rules on fun v => v.Fits one.declared :=
    (yields_one rfl).mono fun v hv => fits_one hv
  have pair : couple.Yields rules on fun v => v.Fits couple.declared :=
    yields_sequenced (List.forall_mem_cons.2 ⟨letter, List.forall_mem_singleton.2 letter⟩)
      fun vs => fits_concat
  have nothing : (one : Parser Listing).skipped.Yields rules on fun v =>
      v.Fits (one : Parser Listing).skipped.declared :=
    (yields_skipped letter).mono fun v hv => hv ▸ fits_zero
  let ss : List (Stage rules on) := [Listing.stage couple 2 rfl rfl pair,
    Listing.stage one.skipped 0 rfl rfl nothing, Listing.stage one 1 rfl rfl letter]
  have hg (xs : List (Value Listing)) (_ : Flat xs) (_ : xs.length = (ss.map Stage.size).sum) :
      Returns rules g xs (.ok (tupleOf (Stage.blockwise ss xs))) :=
    (comes_action (comes_pure _)).returns
  obtain ⟨before, after, -, hafter, -, -, -, selections⟩ :=
    Stage.maps_before_and_after ss (List.cons_ne_nil _ _) g hg
  have inside : ∀ i ∈ [2, 1], i < 3 := by decide
  obtain ⟨p, q, -, hq, ends⟩ := selections [2, 1] (List.cons_ne_nil _ _) inside
  have start : spot o [] (characters "wxyz") ∈ on :=
    ⟨[], _, List.forall_mem_map.2 fun _ _ => rfl, rfl⟩
  obtain ⟨alike, selected⟩ := ends _ start
  have letters : FindsRow rules [one, one] ([char 'w'] ++ ([char 'x'] ++ [])) [char 'w', char 'x']
      [char 'y', char 'z'] := .cons finds_one (.cons finds_one .nil)
  have found : FindsRow rules [couple, (one : Parser Listing).skipped, one]
      ([char 'w', char 'x'] ++ ([char 'y'] ++ ([char 'z'] ++ [])))
      [concat [char 'w', char 'x'], .composite [] none, char 'z'] [] :=
    .cons (finds_sequence letters) (.cons (finds_skipped finds_one) (.cons finds_one .nil))
  obtain ⟨k, hk⟩ := (selected (.composite [.list [char 'z'] none, .list [] none] none) _).2
    ⟨_, [.list [char 'z'] none, .list [] none], found.row rfl, rfl, rfl⟩
  exact ⟨ss, rfl, List.cons_ne_nil _ _, hg, after, q, hafter, hq, k, (alike (.ok _)).1 hk⟩

end ParserAlgebra
