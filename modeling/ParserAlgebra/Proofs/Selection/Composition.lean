import ParserAlgebra.Catalogue.Readers
import ParserAlgebra.Proofs.Finds
import ParserAlgebra.Proofs.Selection

/-!
# Proofs/Selection/Composition — selections compose

    p ──is──▸ ──js──▸    is    p ──through is js──▸            p ──0, …, n − 1──▸    is    p

A second selection is checked against the number of indices of the first, not against the parser
itself.  So two selections are admitted if each is within its own bounds, and then one selection at
the indices they select together is admitted as well, does the same, and is declared to produce as
much.  No index is looked up that is not there: an error is always the parser's own.
-/

namespace ParserAlgebra

open Value ParserAlgebra.Parser ParserAlgebra.Run

variable {P : Type} {is js : List Nat} {n : Int} {p q : Parser P}

/-- The indices of both are inside if each are inside their own bounds. -/
theorem forall_through (hi : ∀ i ∈ is, (i : Int) < n) (hj : ∀ j ∈ js, j < is.length) :
    ∀ k ∈ Mapper.through is js, (k : Int) < n := by
  intro k hk
  obtain ⟨j, hmem, rfl⟩ := List.mem_map.1 hk
  have inside := hj j hmem
  simpa [inside] using hi is[j] (List.getElem_mem inside)

theorem forall_range (n : Int) : ∀ i ∈ List.range n.toNat, (i : Int) < n := by
  intro i hi
  have below := List.mem_range.1 hi
  omega

/-- **Two selections are admitted if each is inside its own bounds.** -/
theorem selecting_twice_eq_ok_iff [Labelled P] (hn : p.arity = some n) (hi : is ≠ [])
    (hj : js ≠ []) :
    (p.selecting is >>= fun s => s.selecting js) = .ok q ↔
      ((∀ i ∈ is, (i : Int) < n) ∧ ∀ j ∈ js, j < is.length) ∧
        q = (p.mapped (.select is)).mapped (.select js) := by
  have count : (p.mapped (.select is)).arity = some (is.length : Int) := arity_mapped_select
  have second := selecting_eq_ok_iff (q := q) count hj
  simp only [Int.ofNat_lt] at second
  constructor
  · intro h
    obtain ⟨s, hs, hq⟩ := exists_ok_of_bind h
    obtain ⟨his, rfl⟩ := (selecting_eq_ok_iff hn hi).1 hs
    obtain ⟨hjs, rfl⟩ := second.1 hq
    exact ⟨⟨his, hjs⟩, rfl⟩
  · rintro ⟨⟨his, hjs⟩, rfl⟩
    rw [(selecting_eq_ok_iff hn hi).2 ⟨his, rfl⟩]
    exact second.2 ⟨hjs, rfl⟩

section

variable [Primitive P] {rules : String → Option (Value P)} {c d v : Value P}

/-- **Selecting twice ends as selecting once.** -/
theorem alike_run_select_twice (hp : p.FitsAt rules c) (hn : p.arity = some n)
    (hi : ∀ i ∈ is, (i : Int) < n) (hj : ∀ j ∈ js, j < is.length) :
    Alike (fun k => ((p.mapped (.select is)).mapped (.select js)).run (quiet rules) k c) fun k =>
      (p.mapped (.select (Mapper.through is js))).run (quiet rules) k c := by
  have outer := alike_run_select (fitsAt_select hp hn hi) arity_mapped_select
    fun j h => Int.ofNat_lt.2 (hj j h)
  have inner := (alike_reading_select hp hn hi).onValue grows_reading (grows_reading.onValue _)
    (k := pick js) (l := pick js) fun _ _ _ => rfl
  have picked : Alike
      (fun k => ((reading rules p c k).onValue (pick is)).onValue (pick js)) fun k =>
        (reading rules p c k).onValue (pick (Mapper.through is js)) := by
    simp only [onValue_onValue]
    refine (Alike.refl _).onValue grows_reading grows_reading fun v d hv => ?_
    have fits := hp.of_ends hv
    exact pick_pick fits.wellShaped.flat (fits.inside hn hi) hj
  refine outer.trans (((inner.trans picked).result (grows_reading.onValue _)
    (grows_reading.onValue _)).trans ?_)
  exact (alike_run_select hp hn (forall_through hi hj)).symm

/-- **All components in order are the parser's own value.** -/
theorem alike_reading_select_all (hp : p.FitsAt rules c) (hn : p.arity = some n) :
    Alike (reading rules (p.mapped (.select (List.range n.toNat))) c) fun k =>
      (reading rules p c k).onValue anew := by
  refine (alike_reading_select hp hn (forall_range n)).trans
    ((Alike.refl _).onValue grows_reading grows_reading fun v d hv => ?_)
  have fits := hp.of_ends hv
  have length : n.toNat = v.components.length := by
    have count := fits.length_eq hn
    omega
  rw [length]
  exact pick_range fits.wellShaped.unwrap_eq

end

/-- **Selections compose.**  Behind a parser of known arity a selection from a selection is admitted
if its indices are below the number of those of the first, and the first's below the arity.
Wherever the parser's values fit its arity, the two end as the one selection at the indices they
select together, which is admitted too; both are declared to produce as much as there are indices,
and raise nothing but what the parser raises.  To select all components in order is to change
nothing. -/
theorem selections_compose [Primitive P] (hn : p.arity = some n) (hi : is ≠ []) (hj : js ≠ []) :
    ((∃ q, (p.selecting is >>= fun s => s.selecting js) = .ok q) ↔
      (∀ i ∈ is, (i : Int) < n) ∧ ∀ j ∈ js, j < is.length) ∧
    (∀ q, (p.selecting is >>= fun s => s.selecting js) = .ok q →
      ∃ r, p.selecting (Mapper.through is js) = .ok r ∧
        q.arity = some (js.length : Int) ∧ r.arity = some (js.length : Int) ∧
        ∀ rules c, p.FitsAt rules c →
          Alike (fun k => q.run (quiet rules) k c) (fun k => r.run (quiet rules) k c) ∧
          ∀ e, Raises (fun k => r.run (quiet rules) k c) e ↔
            Raises (fun k => p.run (quiet rules) k c) e) ∧
    (1 ≤ n → ∃ r, p.selecting (List.range n.toNat) = .ok r ∧ r.arity = some n ∧
      ∀ rules c, p.FitsAt rules c →
        (Declines rules r c ↔ Declines rules p c) ∧
        (∀ e, Raises (fun k => r.run (quiet rules) k c) e ↔
          Raises (fun k => p.run (quiet rules) k c) e) ∧
        ∀ v d, Matches rules r c v d ↔ ∃ w, Matches rules p c w d ∧ v = w.anew) := by
  refine ⟨?_, fun q hq => ?_, fun hpos => ?_⟩
  · refine ⟨fun ⟨q, hq⟩ => ((selecting_twice_eq_ok_iff hn hi hj).1 hq).1, fun inside => ?_⟩
    exact ⟨_, (selecting_twice_eq_ok_iff hn hi hj).2 ⟨inside, rfl⟩⟩
  · obtain ⟨⟨his, hjs⟩, rfl⟩ := (selecting_twice_eq_ok_iff hn hi hj).1 hq
    have together := forall_through his hjs
    have hne : Mapper.through is js ≠ [] := by simpa [Mapper.through] using hj
    refine ⟨_, (selecting_eq_ok_iff hn hne).2 ⟨together, rfl⟩, arity_mapped_select, ?_, ?_⟩
    · rw [arity_mapped_select, Mapper.through, List.length_map]
    · exact fun rules c hp =>
        ⟨alike_run_select_twice hp hn his hjs, fun e => raises_select_iff hp hn together⟩
  · have inside := forall_range n
    have hne : List.range n.toNat ≠ [] := by
      rw [Ne, List.range_eq_nil]
      omega
    refine ⟨_, (selecting_eq_ok_iff hn hne).2 ⟨inside, rfl⟩, ?_, fun rules c hp => ?_⟩
    · rw [arity_mapped_select, List.length_range, Int.toNat_of_nonneg (by omega)]
    · have all := alike_reading_select_all hp hn
      refine ⟨?_, fun e => raises_select_iff hp hn inside, fun v d => ?_⟩
      · rw [declines_iff_ends, declines_iff_ends, all (.ok _), ends_onValue_none grows_reading]
      · rw [matches_iff_ends, all (.ok _), ends_onValue_some grows_reading]
        exact exists_congr fun w => and_congr_left fun _ => matches_iff_ends.symm

/-- Two letters, of which the second, the first and the second are selected, and from these the last
and the first: on `ab` that is the second letter twice, and so it is selected at once.  Both letters
in order are what they were. -/
theorem second_letter_twice :
    let rules : String → Option (Value Catalogue) := fun _ => none
    let o : Origin := ⟨none, true⟩
    let p : Parser Catalogue := sequenced [one, one]
    let c : Value Catalogue := spot o [] (characters "ab")
    let d : Value Catalogue := spot o (characters "ba") []
    p.arity = some 2 ∧ [1, 0, 1] ≠ [] ∧ [2, 0] ≠ [] ∧ p.FitsAt rules c ∧
    ∃ q r s, (p.selecting [1, 0, 1] >>= fun t => t.selecting [2, 0]) = .ok q ∧
      p.selecting [1, 1] = .ok r ∧ p.selecting [0, 1] = .ok s ∧
      q.arity = some 2 ∧ r.arity = some 2 ∧
      Matches rules q c (.composite [char 'b', char 'b'] none) d ∧
      Matches rules s c (.composite [char 'a', char 'b'] none) d := by
  intro rules o p c d
  have count : p.arity = some 2 := rfl
  have found : Finds rules p.body ([char 'a'] ++ ([char 'b'] ++ [])) _ [] :=
    finds_sequence (.cons (p := one) finds_one (.cons (p := one) finds_one .nil))
  have matched : Matches rules p c (.composite [char 'a', char 'b'] none) d := found.matches rfl
  have fits : (tupleOf [char 'a', char 'b'] : Value Catalogue).Fits (some (.ofInt 2)) :=
    fits_tupleOf (flat_cons.2 ⟨rfl, flat_singleton.2 rfl⟩)
  have exact : p.FitsAt rules c := matched.yieldsAt fits
  have hi : [1, 0, 1] ≠ [] := by decide
  have hj : [2, 0] ≠ [] := by decide
  obtain ⟨admitted, composed, whole⟩ := selections_compose count hi hj
  obtain ⟨q, hq⟩ := admitted.2 (by decide)
  obtain ⟨r, hr, hqa, hra, same⟩ := composed q hq
  obtain ⟨s, hs, -, all⟩ := whole (by decide)
  refine ⟨count, hi, hj, exact, q, r, s, hq, hr, hs, hqa, hra, ?_, ?_⟩
  · have once : Matches rules r c (.composite [char 'b', char 'b'] none) d := by
      cases hr
      have picked : Finds rules (p.mapped (.select [1, 1])).body _ _ _ :=
        finds_map found rfl (comes_pure _)
      exact picked.matches rfl
    obtain ⟨k, hk⟩ := once
    exact ⟨k, ((same rules c exact).1 (.ok _)).2 hk⟩
  · exact ((all rules c exact).2.2 _ _).2 ⟨_, matched, rfl⟩

end ParserAlgebra
