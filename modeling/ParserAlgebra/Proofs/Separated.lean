import ParserAlgebra.Proofs.Finds.General
import ParserAlgebra.Proofs.Repetition

/-!
# Proofs/Separated — items with separators in between

    v₀  s₁ v₁  s₂ v₂  …  sₙ vₙ  s        collection [v₀, v₁, …, vₙ], going on at s

The first item comes out of the components that are in front of the list of all others, and the
others out of sequences with a dropped value.  Both give back the item itself, as one element,
however many components it has.  A separator without an item behind it is given back to the input.
-/

namespace ParserAlgebra

variable {P : Type} [Primitive P] {rules : String → Option (Value P)}

open ParserAlgebra.Parser Value

/-- **What items with separators come to** with a first item `v` that ends at `a`, and behind it
pairs of a separator and an item, the last of which ends at `e`: the items are collected, and of the
separators nothing is. -/
structure Separates (rules : String → Option (Value P)) (p s q : Parser P)
    (collect : List (Value P) → Value P) (c v a : Value P)
    (steps : List ((Value P × Value P) × Value P)) (e : Value P) : Prop where
  maximal : Streak (Pair rules s p) (NoPair rules s p) a steps e
  unique : ∀ steps' e', Streak (Pair rules s p) (NoPair rules s p) a steps' e' →
    steps' = steps ∧ e' = e
  collects : Comes (fun n => q.run (quiet rules) n c)
    (.success (collect (v :: (Streak.values steps).map Prod.snd)).unwrap e none)

section

variable {p s q : Parser P} {f : Callable P} {collect : List (Value P) → Value P}
  {items : Set (Value P)} {c a e x y v : Value P} {w : Value P × Value P} {i : Identity}
  {steps : List ((Value P × Value P) × Value P)}

/-- A pair whose first value is dropped. -/
theorem Pair.skipping (h : Pair rules s p x w y) :
    Matches rules (sequenced [s.skipped, p]) x (concat [composite [] none, w.2]) y := by
  obtain ⟨d, hs, hp⟩ := h
  exact hs.skipped.pair hp

theorem NoPair.skipping (h : NoPair rules s p x) :
    Declines rules (sequenced [s.skipped, p]) x := by
  obtain h | ⟨v, d, hs, hp⟩ := h
  · exact h.skipped.pair
  · exact hs.skipped.pair_declines hp

omit [Primitive P] in
/-- The list of all items, as it is put together from a first item and pairs whose first value is
dropped. -/
theorem anew_items {ws : List (Value P × Value P)} (hitems : ∀ v ∈ items, v.unwrap = v)
    (hs : ∀ w ∈ ws, w.2 ∈ items) :
    v.anew :: ws.map (fun w => concat [composite [] none, w.2]) =
      (v :: ws.map Prod.snd).map anew := by
  have rest : ws.map (fun w => concat [composite [] none, w.2]) = ws.map fun w => w.2.anew :=
    List.map_congr_left fun w hw => concat_empty_left (hitems _ (hs w hw)) none
  rw [rest, List.map_cons, List.map_map]
  rfl

/-- Items with separators take whatever streak of pairs there is behind an item. -/
theorem Streak.separates (hq : p.separated s (.callable f i) = .ok q)
    (hitems : ∀ v ∈ items, v.unwrap = v)
    (hf : ∀ vs, (∀ v ∈ vs, v ∈ items) →
      Returns rules f [.list (vs.map anew) none] (.ok (collect vs)))
    (h : Matches rules p c v a) (hv : v ∈ items)
    (hs : Streak (Pair rules s p) (NoPair rules s p) a steps e)
    (hsteps : ∀ w ∈ values steps, w.2 ∈ items) :
    Separates rules p s q collect c v a steps e := by
  refine ⟨hs, fun _ _ => hs.unique_pairs, comes_call ?_⟩
  have all : ∀ w ∈ v :: (values steps).map Prod.snd, w ∈ items :=
    List.forall_mem_cons.2 ⟨hv, List.forall_mem_map.2 hsteps⟩
  have pairs := hs.map (fun w => concat [composite [] none, w.2]) (fun _ _ _ => Pair.skipping)
    fun _ => NoPair.skipping
  refine comes_separated hq h pairs (hitems v hv) ?_
  rw [values_map, anew_items hitems hsteps]
  exact hf _ all

end

/-- **Items with separators are collected, exactly those.**  On a stream that item and separator
answer on, where a separator and an item leave fewer tokens: there is a match where there is an
item, of this item and of all items behind separators that follow, each as one element. -/
theorem separated_collects_items {p s q : Parser P} {f : Callable P} {k : Identity}
    {c : Cursor (Value P)} {items separators : Set (Value P)} {collect : List (Value P) → Value P}
    (hq : p.separated s (.callable f k) = .ok q) (hc : c.Readable)
    (hp : Answers rules c p items) (hitems : ∀ v ∈ items, v.unwrap = v)
    (hs : Answers rules c s separators) (ha : Advances c (Pair rules s p))
    (hf : ∀ vs, (∀ v ∈ vs, v ∈ items) →
      Returns rules f [.list (vs.map anew) none] (.ok (collect vs))) (i : Identity) :
    (Declines rules q (.cursor c i) ↔ Declines rules p (.cursor c i)) ∧
    (Declines rules p (.cursor c i) →
      Comes (fun n => q.run (quiet rules) n (.cursor c i)) .failure) ∧
    ∀ v a, Matches rules p (.cursor c i) v a → ∃ steps e j, c.Along e ∧
      Separates rules p s q collect (.cursor c i) v a steps (.cursor e j) := by
  have fails (h : Declines rules p (.cursor c i)) :
      Comes (fun n => q.run (quiet rules) n (.cursor c i)) .failure :=
    comes_call (comes_separated_failure hq h)
  have separates : ∀ v a, Matches rules p (.cursor c i) v a → ∃ steps e j, c.Along e ∧
      Separates rules p s q collect (.cursor c i) v a steps (.cursor e j) := by
    intro v a h
    obtain hno | ⟨v', hmem, d, j, hd, h'⟩ := hp c i hc.along
    · exact absurd hno h.not_declines
    obtain ⟨rfl, rfl⟩ := h'.unique h
    obtain ⟨steps, e, j', he, hstreak, hvalues, _⟩ := exists_streak_along (hs.pair hp) ha hd j
    exact ⟨steps, e, j', he, hstreak.separates hq hitems hf h hmem fun w hw => (hvalues w hw).2⟩
  refine ⟨⟨fun hno => ?_, fun h => ⟨.failure, rfl, fails h⟩⟩, fails, separates⟩
  -- an item would be a match
  obtain h | ⟨v, _, d, j, _, h⟩ := hp c i hc.along
  · exact h
  · obtain ⟨steps, e, j', _, hsep⟩ := separates v _ h
    have found : Matches rules q (.cursor c i) _ (.cursor e j') := ⟨none, hsep.collects⟩
    exact absurd hno found.not_declines

/-! ## Couples with commas -/

section

/-- A cursor on `ab,cd,e`. -/
abbrev couplesWithCommas : Cursor (Value Catalogue) :=
  .start ⟨some 1, true⟩ [.ofText "a", .ofText "b", .ofText ",", .ofText "c", .ofText "d",
    .ofText ",", .ofText "e"]

/-- Two couples are collected as two elements, and the comma behind the second is given back, as
there is only one letter behind it. -/
theorem couples_collect_items :
    let rules : String → Option (Value Catalogue) := fun _ => none
    let comma : Parser Catalogue := token (.ofText ",")
    let tokens : Set (Value Catalogue) := {t | t ∈ couplesWithCommas.tokens}
    let couples : Set (Value Catalogue) := {x | ∃ v ∈ tokens, ∃ w ∈ tokens, x = .concat [v, w]}
    ∃ q, couple.separated comma (.callable gathered none) = .ok q ∧ couplesWithCommas.Readable ∧
    Answers rules couplesWithCommas couple couples ∧ (∀ v ∈ couples, v.unwrap = v) ∧
    Answers rules couplesWithCommas comma tokens ∧
    Advances couplesWithCommas (Pair rules comma couple) ∧
    (∀ vs : List (Value Catalogue), (∀ v ∈ vs, v ∈ couples) →
      Returns rules gathered [.list (vs.map anew) none] (.ok (.list (vs.map anew) none))) ∧
    Comes (fun n => q.run (quiet rules) n (.cursor couplesWithCommas none))
      (.success (.list [.composite [.ofText "a", .ofText "b"] none,
        .composite [.ofText "c", .ofText "d"] none] none)
        (spot ⟨some 1, true⟩ [.ofText "d", .ofText "c", .ofText ",", .ofText "b", .ofText "a"]
          [.ofText ",", .ofText "e"]) none) := by
  intro rules comma tokens couples
  refine ⟨_, rfl, ?_⟩
  have flat : ∀ t ∈ couplesWithCommas.tokens, t.isComposite = false := by decide
  have readable : couplesWithCommas.Readable := rfl
  have items : Progresses rules couplesWithCommas couple couples :=
    progresses_one.joined progresses_one
  have unwrapped : ∀ v ∈ couples, v.unwrap = v := by
    rintro _ ⟨v, hv, w, hw, rfl⟩
    rw [concat_pair (flat v hv) (flat w hw), unwrap_composite_cons_cons]
  have commas : Progresses rules couplesWithCommas comma tokens :=
    progresses_one.filtered rfl fun t ht => ⟨flat t ht, _, returns_equals _ t, fun _ => ht⟩
  have advances : Advances couplesWithCommas (Pair rules comma couple) := commas.pair items
  have gathers (vs : List (Value Catalogue)) (_ : ∀ v ∈ vs, v ∈ couples) :
      Returns rules gathered [.list (vs.map anew) none] (.ok (.list (vs.map anew) none)) :=
    returns_gathered _
  refine ⟨readable, items.answers, unwrapped, commas.answers, advances, gathers, ?_⟩
  have collected := separated_collects_items (k := none) rfl readable items.answers unwrapped
    commas.answers advances gathers none
  have both (passed rest : List (Value Catalogue)) (s t : String) :
      Matches rules couple (spot ⟨some 1, true⟩ passed (.ofText s :: .ofText t :: rest))
        (.composite [.ofText s, .ofText t] none)
        (spot ⟨some 1, true⟩ (.ofText t :: .ofText s :: passed) rest) := by
    rw [← concat_pair rfl rfl]
    exact (matches_one rfl rfl rfl none).pair (matches_one rfl rfl rfl none)
  have separator (passed rest : List (Value Catalogue)) :
      Matches rules comma (spot ⟨some 1, true⟩ passed (.ofText "," :: rest)) (.ofText ",")
        (spot ⟨some 1, true⟩ (.ofText "," :: passed) rest) :=
    matches_of_body (finds_token rfl rfl _ passed rfl)
  have single (passed : List (Value Catalogue)) (x : Value Catalogue) :
      Declines rules couple (spot ⟨some 1, true⟩ passed [x]) :=
    (matches_one rfl rfl rfl none).pair_declines (declines_one rfl none)
  have pairs : Streak (Pair rules comma couple) (NoPair rules comma couple) _
      [((_, _), _)] _ :=
    .cons ⟨_, separator [.ofText "b", .ofText "a"] _, both _ _ "c" "d"⟩
      (.nil (.inr ⟨_, _, separator _ _, single _ (.ofText "e")⟩))
  obtain ⟨steps, e, j, _, h⟩ := collected.2.2 _ _ (both [] _ "a" "b")
  obtain ⟨rfl, he⟩ := h.unique _ _ pairs
  have collects := h.collects
  rw [← he, unwrap_of_isComposite rfl] at collects
  exact collects

end

end ParserAlgebra
