import ParserAlgebra.Catalogue.Readers
import ParserAlgebra.Proofs.Arity.Counted
import ParserAlgebra.Proofs.Ends.Yields

/-!
# Proofs/Grouping — sequencing is insensitive to grouping

    sequence
    ├─ a
    ├─ group
    │  └─ sequence
    │     ├─ succeed          ⟶   sequence(a, b, c)
    │     └─ b
    └─ sequence
       └─ c

Each call of `sequence` puts the components of its members together and unwraps the result if there
is a single one, and the call around it takes that apart again.  What survives all this are the
components: a group is read as its leaves in a row are (`StandFor`).  That is enough to tell what it
produces, because values that cannot be unwrapped are determined by their components.

Members that contribute nothing vanish, whether they are `succeed` or were skipped.
-/

namespace ParserAlgebra

open Value

variable {P : Type}

/-- **A nested tree of sequences**: parsers, `succeed` anywhere between them, named groups, and
calls of `sequence` with one member or more. -/
inductive Grouping (P : Type) where
  | leaf (p : Parser P)
  | blank
  | named (name : String) (t : Grouping P)
  | sequence (t : Grouping P) (ts : List (Grouping P))

namespace Grouping

mutual

/-- The parsers in a tree, from left to right. -/
def leaves : Grouping P → List (Parser P)
  | leaf p => [p]
  | blank => []
  | named _ t => t.leaves
  | sequence t ts => t.leaves ++ leavesAll ts

def leavesAll : List (Grouping P) → List (Parser P)
  | [] => []
  | t :: ts => t.leaves ++ leavesAll ts

end

section

variable [Labelled P]

mutual

/-- **The parser that is written that way**: the members first, then the call on them. -/
def build : Grouping P → Except (Error P) (Parser P)
  | leaf p => .ok p
  | blank => .ok .succeed
  | named name t => do return (← t.build).named (.ofText name)
  | sequence t ts => do
    let q ← t.build
    let qs ← buildAll ts
    Parser.sequence (q :: qs)

def buildAll : List (Grouping P) → Except (Error P) (List (Parser P))
  | [] => .ok []
  | t :: ts => do
    let q ← t.build
    let qs ← buildAll ts
    return q :: qs

end

end

end Grouping

/-! ## Parsers in a row that stand for others -/

variable [Primitive P] {rules : String → Option (Value P)} {on : Set (Value P)}
  {p q : Parser P} {ps qs ps' qs' : List (Parser P)} {c d v : Value P}

open ParserAlgebra.Parser

/-- **Parsers in a row stand for others**: they produce as many components in total, and the same
ones. -/
structure StandFor (rules : String → Option (Value P)) (on : Set (Value P))
    (qs ps : List (Parser P)) : Prop where
  counted : ∀ q ∈ qs, q.Counted
  unwraps : ∀ q ∈ qs, q.Unwraps rules on
  arity_eq : totalArity qs = totalArity ps
  alike : ∀ c ∈ on, Alike (parts rules qs c) (parts rules ps c)

namespace StandFor

theorem refl (hc : ∀ p ∈ ps, p.Counted) (hu : ∀ p ∈ ps, p.Unwraps rules on) :
    StandFor rules on ps ps := ⟨hc, hu, rfl, fun _ _ => .refl _⟩

/-- **`succeed` stands for nothing.** -/
theorem blank : StandFor rules on [succeed] [] where
  counted := List.forall_mem_singleton.2
    ⟨rfl, fun x hx => ⟨.int 0, 0, by cases hx; rfl, rfl⟩⟩
  unwraps := by
    refine List.forall_mem_singleton.2 fun c hc x hx => ?_
    have succeeds : Comes (fun n => (succeed : Parser P).run (quiet rules) n c)
      (.success (.composite [] none) c none) := comes_call (comes_pure _)
    exact .inr ⟨_, c, none, succeeds.unique hx, unwrap_composite_nil none, hc⟩
  arity_eq := rfl
  alike c _ := by
    have succeeds : Comes (reading rules succeed c) (some (.composite [] none, c)) :=
      (comes_call (comes_pure _)).bind (comes_pure _)
    rw [parts_singleton]
    exact .of_comes (succeeds.bind (comes_pure _))

/-- **A name changes nothing.** -/
theorem named (h : StandFor rules on [q] ps) (name : String) :
    StandFor rules on [q.named (.ofText name)] ps where
  counted := List.forall_mem_singleton.2
    ⟨rfl, (h.counted q (List.mem_singleton_self q)).exists_count⟩
  unwraps := by
    refine List.forall_mem_singleton.2 fun c hc => ?_
    simp only [run_named]
    exact h.unwraps q (List.mem_singleton_self q) c hc
  arity_eq := by
    have total := h.arity_eq
    rw [totalArity_singleton] at total ⊢
    exact total
  alike c hc := by
    have same := h.alike c hc
    rw [parts_singleton] at same ⊢
    simp only [reading, run_named] at same ⊢
    exact same

/-- **Rows are put one behind the other.** -/
theorem append (h : StandFor rules on qs ps) (k : StandFor rules on qs' ps') :
    StandFor rules on (qs ++ qs') (ps ++ ps') where
  counted q hq := (List.mem_append.1 hq).elim (h.counted q) (k.counted q)
  unwraps q hq := (List.mem_append.1 hq).elim (h.unwraps q) (k.unwraps q)
  arity_eq := by rw [totalArity_append, totalArity_append, h.arity_eq, k.arity_eq]
  alike c hc := by
    rw [parts_append, parts_append]
    refine (h.alike c hc).followed grows_parts grows_parts (fun _ => grows_parts)
      (fun _ => grows_parts) (fun xs d hd => ?_) _
    obtain ⟨vs, hvs, _⟩ := (ends_onValue_some grows_row).1 hd
    exact k.alike d (forall₂_of_ends_row h.unwraps hc hvs).2

/-- **One call on all members** stands for what they stand for. -/
theorem sequence (h : StandFor rules on qs ps) (hne : qs ≠ []) :
    ∃ q, Parser.sequence qs = .ok q ∧ StandFor rules on [q] ps := by
  obtain ⟨q, hq, hcounted, harity⟩ := sequence_of_counted h.counted hne
  refine ⟨q, hq, List.forall_mem_singleton.2 hcounted,
    List.forall_mem_singleton.2 (unwraps_of_sequence hq h.unwraps), ?_, fun c hc => ?_⟩
  · rw [totalArity_singleton, harity, h.arity_eq]
  · exact (alike_parts_of_sequence hq h.unwraps hc).trans (h.alike c hc)

end StandFor

namespace Grouping

/-- **All leaves are counted parsers that unwrap.** -/
def Sound (rules : String → Option (Value P)) (on : Set (Value P)) (ps : List (Parser P)) : Prop :=
  ∀ p ∈ ps, p.Counted ∧ p.Unwraps rules on

theorem Sound.append (h : Sound rules on (ps ++ qs)) :
    Sound rules on ps ∧ Sound rules on qs :=
  ⟨fun p hp => h p (List.mem_append_left qs hp), fun q hq => h q (List.mem_append_right ps hq)⟩

mutual

/-- **A tree can be built, and stands for its leaves.** -/
theorem exists_build (t : Grouping P) (h : Sound rules on t.leaves) :
    ∃ q, t.build = .ok q ∧ StandFor rules on [q] t.leaves := by
  match t with
  | leaf p =>
    exact ⟨p, rfl, .refl (fun q hq => (h q hq).1) fun q hq => (h q hq).2⟩
  | blank => exact ⟨.succeed, rfl, .blank⟩
  | named name t =>
    obtain ⟨q, hq, stands⟩ := exists_build t h
    exact ⟨q.named (.ofText name), by rw [build, hq]; rfl, stands.named name⟩
  | sequence t ts =>
    obtain ⟨ht, hts⟩ := h.append
    obtain ⟨q, hq, first⟩ := exists_build t ht
    obtain ⟨qs, hqs, rest⟩ := exists_buildAll ts hts
    obtain ⟨r, hr, whole⟩ := (first.append rest).sequence (List.cons_ne_nil q qs)
    refine ⟨r, ?_, whole⟩
    rw [build, hq, hqs]
    exact hr

theorem exists_buildAll (ts : List (Grouping P)) (h : Sound rules on (leavesAll ts)) :
    ∃ qs, buildAll ts = .ok qs ∧ StandFor rules on qs (leavesAll ts) := by
  match ts with
  | [] => exact ⟨[], rfl, .refl nofun nofun⟩
  | t :: ts =>
    obtain ⟨ht, hts⟩ := h.append
    obtain ⟨q, hq, first⟩ := exists_build t ht
    obtain ⟨qs, hqs, rest⟩ := exists_buildAll ts hts
    exact ⟨q :: qs, by rw [buildAll, hq, hqs]; rfl, first.append rest⟩

end

end Grouping

/-! ## Parsers that agree -/

/-- **Two parsers agree at a cursor**: they fail alike, raise the same errors, and match with the
same next cursor and the same value, though it may be a composite that each makes anew. -/
structure AgreeAt (rules : String → Option (Value P)) (p q : Parser P) (c : Value P) : Prop where
  fails : Comes (fun n => p.run (quiet rules) n c) .failure ↔
    Comes (fun n => q.run (quiet rules) n c) .failure
  raises : ∀ e, Raises (fun n => p.run (quiet rules) n c) e ↔
    Raises (fun n => q.run (quiet rules) n c) e
  matches_iff : ∀ v d, (∃ w, Matches rules p c w d ∧ w.anew = v) ↔
    ∃ w, Matches rules q c w d ∧ w.anew = v

/-- The components that are read are those of a match. -/
theorem ends_parts_iff {xs : List (Value P)} : Ends (parts rules [p] c) (.ok (some (xs, d))) ↔
    ∃ v, Matches rules p c v d ∧ v.components = xs := by
  rw [parts_singleton]
  refine (ends_onValue_some grows_reading).trans (exists_congr fun v => ?_)
  rw [matches_iff_ends, eq_comm]

section

variable (hp : p.Unwraps rules on) (hc : c ∈ on)

include hp hc

theorem ends_parts_none_iff : Ends (parts rules [p] c) (.ok none) ↔
    Comes (fun n => p.run (quiet rules) n c) .failure := by
  rw [parts_singleton]
  refine (ends_onValue_none grows_reading).trans
    ((hp.reading hc).trans ⟨?_, fun hx => .inl ⟨rfl, hx⟩⟩)
  rintro (⟨_, hx⟩ | ⟨v, d, ⟨⟩, _⟩)
  exact hx

theorem raises_parts_iff {e : Error P} : Raises (parts rules [p] c) e ↔
    Raises (fun n => p.run (quiet rules) n c) e := by
  rw [parts_singleton]
  exact (raises_onValue grows_reading).trans (hp.yieldsAt hc).raises_iff

end

/-- **Parsers that are read alike agree**, if their values are unwrapped. -/
theorem agreeAt_of_alike (hp : p.Unwraps rules on) (hq : q.Unwraps rules on) (hc : c ∈ on)
    (h : Alike (parts rules [p] c) (parts rules [q] c)) : AgreeAt rules p q c where
  fails := by
    rw [← ends_parts_none_iff hp hc, ← ends_parts_none_iff hq hc]
    exact h _
  raises e := by
    rw [← raises_parts_iff hp hc, ← raises_parts_iff hq hc]
    exact h _
  matches_iff v d := by
    have transfer {p q : Parser P} (hp : p.Unwraps rules on) (hq : q.Unwraps rules on)
        (h : Alike (parts rules [p] c) (parts rules [q] c)) :
        (∃ w, Matches rules p c w d ∧ w.anew = v) → ∃ w, Matches rules q c w d ∧ w.anew = v := by
      rintro ⟨w, hw, rfl⟩
      obtain ⟨u, hu, heq⟩ := ends_parts_iff.1
        ((h _).1 (ends_parts_iff.2 ⟨w, hw, rfl⟩))
      refine ⟨u, hu, ?_⟩
      rw [← tupleOf_components (hq.matched hc hu).1, heq, tupleOf_components (hp.matched hc hw).1]
    exact ⟨transfer hp hq h, transfer hq hp h.symm⟩

/-! ## Members that are skipped -/

/-- **Between skipped members a parser keeps its values.** -/
theorem matches_between_iff {a b : Parser P} (ha : a.Yields rules on fun _ => True)
    (hb : b.Yields rules on fun _ => True) (hp : p.Unwraps rules on) (hc : c ∈ on) {f : Value P} :
    Matches rules (sequenced [a.skipped, p, b.skipped]) c v f ↔
      ∃ u d w e x, Matches rules a c u d ∧ Matches rules p d w e ∧ Matches rules b e x f ∧
        v = w.anew := by
  have members : ∀ q ∈ [a.skipped, p, b.skipped], q.Yields rules on fun _ => True := by
    simp only [List.forall_mem_cons, List.not_mem_nil]
    exact ⟨(yields_skipped ha).mono fun _ _ => trivial, hp.mono fun _ _ => trivial,
      (yields_skipped hb).mono fun _ _ => trivial, nofun⟩
  have value {w : Value P} (hw : w.unwrap = w) :
      concat [.composite [] none, w, .composite [] none] = w.anew := by
    rw [← unwrap_composite_components hw]
    simp [concat]
  refine (matches_sequenced_iff (R := fun _ _ => True) members hc).trans ⟨?_, ?_⟩
  · rintro ⟨vs, hvs, rfl⟩
    obtain _ | ⟨hfirst, _ | ⟨hw, _ | ⟨hlast, ⟨⟩⟩⟩⟩ := hvs
    obtain ⟨rfl, u, hu⟩ := (matches_skipped_iff ha hc).1 hfirst
    have hd := (ha.matched hc hu).2
    obtain ⟨hunwrap, he⟩ := hp.matched hd hw
    obtain ⟨rfl, x, hx⟩ := (matches_skipped_iff hb he).1 hlast
    exact ⟨u, _, _, _, x, hu, hw, hx, value hunwrap⟩
  · rintro ⟨u, d, w, e, x, hu, hw, hx, rfl⟩
    have hd := (ha.matched hc hu).2
    obtain ⟨hunwrap, he⟩ := hp.matched hd hw
    have first := (matches_skipped_iff ha hc).2 ⟨rfl, u, hu⟩
    have last := (matches_skipped_iff hb he).2 ⟨rfl, x, hx⟩
    exact ⟨_, .cons first (.cons hw (.cons last .nil)), (value hunwrap).symm⟩

/-! ## The main result -/

/-- **Sequencing is insensitive to grouping.**  Any tree of calls of `sequence` and named groups,
with any number of `succeed` in between, agrees with one call on its leaves, on all cursors that the
leaves stay on, and has the same arity.  So a parser between skipped members matches where all three
match in turn, with its own value and its own arity. -/
theorem sequence_regroups (rules : String → Option (Value P)) (on : Set (Value P)) :
    (∀ t : Grouping P, t.leaves ≠ [] → Grouping.Sound rules on t.leaves →
      ∃ q flat, t.build = .ok q ∧ Parser.sequence t.leaves = .ok flat ∧ q.arity = flat.arity ∧
        ∀ c ∈ on, AgreeAt rules q flat c) ∧
    ∀ a p b : Parser P, a.Counted → p.Counted → b.Counted → (a.Yields rules on fun _ => True) →
      p.Unwraps rules on → (b.Yields rules on fun _ => True) →
      ∃ sa sb q, a.skip = .ok sa ∧ b.skip = .ok sb ∧ Parser.sequence [sa, p, sb] = .ok q ∧
        q.arity = p.arity ∧ ∀ c ∈ on, ∀ v f, Matches rules q c v f ↔
          ∃ u d w e x, Matches rules a c u d ∧ Matches rules p d w e ∧ Matches rules b e x f ∧
            v = w.anew := by
  refine ⟨fun t hne h => ?_, fun a p b hac hpc hbc ha hp hb => ?_⟩
  · obtain ⟨q, hq, tree⟩ := t.exists_build h
    have leaves : StandFor rules on t.leaves t.leaves :=
      .refl (fun p hp => (h p hp).1) fun p hp => (h p hp).2
    obtain ⟨flat, hflat, row⟩ := leaves.sequence hne
    refine ⟨q, flat, hq, hflat, ?_, fun c hc => ?_⟩
    · rw [← totalArity_singleton, tree.arity_eq, ← row.arity_eq, totalArity_singleton]
    · exact agreeAt_of_alike (tree.unwraps q (List.mem_singleton_self q))
        (row.unwraps flat (List.mem_singleton_self flat)) hc
        ((tree.alike c hc).trans (row.alike c hc).symm)
  · have counted : ∀ q ∈ [a.skipped, p, b.skipped], q.Counted := by
      simp only [List.forall_mem_cons, List.not_mem_nil]
      exact ⟨counted_skipped a, hpc, counted_skipped b, nofun⟩
    obtain ⟨q, hq, _, harity⟩ := sequence_of_counted counted (List.cons_ne_nil _ _)
    obtain rfl := eq_sequenced_of_sequence hq
    refine ⟨_, _, _, skip_of_counted hac, skip_of_counted hbc, hq, ?_, fun c hc v f => ?_⟩
    · cases hp : p.arity <;> simp [harity, totalArity, hp]
    · exact matches_between_iff ha hb hp hc

/-- Letters are kept, but for the middle one, which becomes a composite that holds another one.
Grouped with nothing in between they come to what they come to in a row, and between skipped letters
the middle one keeps its value. -/
theorem letters_regroup :
    let rules : String → Option (Value Catalogue) := fun _ => none
    let o : Origin := ⟨none, true⟩
    let deep : Value Catalogue := .composite [.ofInt 1, .composite [.ofInt 2, .ofInt 3] none] none
    let middle : Parser Catalogue :=
      one.mapped (.total (.action (.constant deep)) (some (.ofInt 2)))
    let tree : Grouping Catalogue := .sequence .blank
      [.leaf one, .named "group" (.sequence (.leaf middle) [.blank, .sequence (.leaf one) []])]
    let on : Set (Value Catalogue) := spots o fun t => t.isComposite = false
    tree.leaves ≠ [] ∧ Grouping.Sound rules on tree.leaves ∧
    (∃ q flat, tree.build = .ok q ∧ Parser.sequence [one, middle, one] = .ok flat ∧
      q.arity = flat.arity ∧ AgreeAt rules q flat (spot o [] (characters "xyz"))) ∧
    ∃ q, Parser.sequence [(one : Parser Catalogue).skipped, middle, one.skipped] = .ok q ∧
      q.arity = some 2 ∧ Matches rules q (spot o [] (characters "xyz")) deep
        (spot o (characters "zyx") []) := by
  intro rules o deep middle tree on
  have letter : (one : Parser Catalogue).Yields rules on fun t => t.isComposite = false :=
    yields_one rfl
  have constant (v : Value Catalogue) : Comes (fun n => call (quiet rules) n
      (.action (.constant deep)) v.components) deep := comes_action (comes_pure _)
  have unwraps : middle.Unwraps rules on :=
    yields_mapped (m := .total (.action (.constant deep)) _) (g := fun _ => deep) letter rfl
      (fun v _ => ⟨_, constant v, rfl⟩) fun _ _ => rfl
  have counted : (one : Parser Catalogue).Counted :=
    ⟨rfl, fun x hx => ⟨.int 1, 1, by cases hx; rfl, rfl⟩⟩
  have countedMiddle : middle.Counted := ⟨rfl, fun x hx => ⟨.int 2, 2, by cases hx; rfl, rfl⟩⟩
  have single : (one : Parser Catalogue).Unwraps rules on :=
    letter.mono fun _ => unwrap_of_isComposite
  have sound : Grouping.Sound rules on tree.leaves := by
    intro p hp
    obtain rfl | rfl | rfl : p = one ∨ p = middle ∨ p = one := by
      simpa [tree, Grouping.leaves, Grouping.leavesAll] using hp
    · exact ⟨counted, single⟩
    · exact ⟨countedMiddle, unwraps⟩
    · exact ⟨counted, single⟩
  have start : spot o [] (characters "xyz") ∈ on :=
    ⟨[], _, List.forall_mem_map.2 fun _ _ => rfl, rfl⟩
  obtain ⟨q, flat, hq, hflat, harity, agree⟩ :=
    (sequence_regroups rules on).1 tree (List.cons_ne_nil _ _) sound
  obtain ⟨_, _, r, hx, hz, hr, hr_arity, hmatches⟩ :=
    (sequence_regroups rules on).2 one middle one counted countedMiddle counted
      (letter.mono fun _ _ => trivial) unwraps (letter.mono fun _ _ => trivial)
  obtain rfl := Except.ok.inj ((skip_of_counted counted).symm.trans hx)
  obtain rfl := Except.ok.inj ((skip_of_counted counted).symm.trans hz)
  have found : Finds rules middle.body [char 'y'] deep [char 'z'] :=
    finds_map (p := one) (m := .total (.action (.constant deep)) _) (v := char 'y')
      finds_one rfl (constant (char 'y'))
  have matched := (hmatches _ start deep (spot o (characters "zyx") [])).2
    ⟨_, _, deep, _, _, finds_one.matches (p := one) rfl, found.matches rfl,
      finds_one.matches (p := one) rfl, rfl⟩
  exact ⟨List.cons_ne_nil _ _, sound, ⟨q, flat, hq, hflat, harity, agree _ start⟩,
    r, hr, hr_arity, matched⟩

end ParserAlgebra
