import Mathlib.Data.List.Forall2
import ParserAlgebra.Proofs.Ends.Results
import ParserAlgebra.Proofs.Finds

/-!
# Proofs/Ends/Yields — parsers that stay on some cursors

    c ──p──▸ v, d     with Q v, and d among the same cursors as c

Which cursors a grammar gets to see depends on its parsers.  So what is asked of a parser is asked
on a set of cursors that its matches stay on: there it fails, raises, or matches with values of some
kind (`Parser.Yields`).  Combinators whose operands do that do it too, and what they are read as is
made of what their operands are read as.
-/

namespace ParserAlgebra

variable {P : Type}

open Value ParserAlgebra.Run

variable [Primitive P] {rules : String → Option (Value P)} {ps : List (Parser P)} {p q : Parser P}
  {c d : Value P}

/-! ## Parsers that stay on some cursors -/

variable {on : Set (Value P)} {Q : Value P → Prop}

/-- **On some cursors, all results are failures or matches** with values that satisfy `Q`, and the
next cursors are among the same. -/
def Parser.Yields (rules : String → Option (Value P)) (on : Set (Value P)) (Q : Value P → Prop)
    (p : Parser P) : Prop :=
  ∀ c ∈ on, ∀ x, Comes (fun n => p.run (quiet rules) n c) x →
    x = .failure ∨ ∃ v d k, x = .success v d k ∧ Q v ∧ d ∈ on

theorem Parser.Yields.mono {Q' : Value P → Prop} (h : p.Yields rules on Q)
    (hQ : ∀ v, Q v → Q' v) : p.Yields rules on Q' :=
  fun c hc x hx => (h c hc x hx).imp_right fun ⟨v, d, k, heq, hv, hd⟩ =>
    ⟨v, d, k, heq, hQ v hv, hd⟩

/-- So it does at each of the cursors. -/
theorem Parser.Yields.yieldsAt (h : p.Yields rules on Q) (hc : c ∈ on) : p.YieldsAt rules Q c := by
  intro x hx
  obtain rfl | ⟨v, d, k, heq, hv, _⟩ := h c hc x hx
  · exact .inl rfl
  · exact .inr ⟨v, d, k, heq, hv⟩

/-- What such a parser is read as. -/
theorem Parser.Yields.reading (h : p.Yields rules on Q) (hc : c ∈ on) {m : Reading P (Value P)} :
    Ends (reading rules p c) (.ok m) ↔
      m = none ∧ Comes (fun n => p.run (quiet rules) n c) .failure ∨
        ∃ v d, m = some (v, d) ∧ Matches rules p c v d := by
  refine (ends_bind (grows_call _ _)).trans ⟨?_, ?_⟩
  · rintro (⟨e, _, ⟨⟩⟩ | ⟨x, hx, hm⟩)
    obtain rfl | ⟨v, d, k, rfl, _, _⟩ := h c hc x hx
    · exact .inl ⟨Except.ok.inj (ends_pure_iff.1 hm), hx⟩
    · exact .inr ⟨v, d, Except.ok.inj (ends_pure_iff.1 hm), k, hx⟩
  · rintro (⟨rfl, hx⟩ | ⟨v, d, rfl, k, hx⟩)
    · exact .inr ⟨_, hx, comes_pure _⟩
    · exact .inr ⟨_, hx, comes_pure _⟩

/-- A match of such a parser. -/
theorem Parser.Yields.matched (h : p.Yields rules on Q) (hc : c ∈ on) {v : Value P}
    (hm : Matches rules p c v d) : Q v ∧ d ∈ on := by
  obtain ⟨k, hx⟩ := hm
  obtain heq | ⟨w, e, l, heq, hw⟩ := h c hc _ hx
  · contradiction
  · cases heq
    exact hw

/-- What is read is one of its values, and what is left is among the same cursors. -/
theorem Parser.Yields.of_ends (h : p.Yields rules on Q) (hc : c ∈ on) {v : Value P}
    (hm : Ends (ParserAlgebra.reading rules p c) (.ok (some (v, d)))) : Q v ∧ d ∈ on :=
  h.matched hc (matches_iff_ends.2 hm)

variable {R : Parser P → Value P → Prop} {vs : List (Value P)}

/-- **What is read off a row** are matches in a row. -/
theorem ends_row_iff (h : ∀ p ∈ ps, p.Yields rules on (R p)) (hc : c ∈ on) :
    Ends (row rules ps c) (.ok (some (vs, d))) ↔ Row rules ps c vs d := by
  refine ⟨fun hm => ?_, Row.comes⟩
  induction ps generalizing c vs with
  | nil =>
    cases ends_pure_iff.1 hm
    exact .nil
  | cons p ps ih =>
    obtain ⟨hp, hps⟩ := List.forall_mem_cons.1 h
    rw [row_cons] at hm
    obtain ⟨v, e, ws, hv, hws, rfl⟩ := (ends_followed_some grows_reading fun _ => grows_row).1 hm
    exact .cons (matches_iff_ends.2 hv) (ih hps (hp.of_ends hc hv).2 hws)

/-- **The values of a row** are each one of its parser's, and the row stays on the cursors. -/
theorem Row.yields (hm : Row rules ps c vs d) (h : ∀ p ∈ ps, p.Yields rules on (R p))
    (hc : c ∈ on) : List.Forall₂ R ps vs ∧ d ∈ on := by
  induction hm with
  | nil => exact ⟨.nil, hc⟩
  | cons hv _ ih =>
    obtain ⟨hp, hps⟩ := List.forall_mem_cons.1 h
    obtain ⟨hR, hd⟩ := hp.matched hc hv
    obtain ⟨hRs, he⟩ := ih hps hd
    exact ⟨.cons hR hRs, he⟩

/-- So are those that are read off it. -/
theorem forall₂_of_ends_row (h : ∀ p ∈ ps, p.Yields rules on (R p)) (hc : c ∈ on)
    (hm : Ends (row rules ps c) (.ok (some (vs, d)))) : List.Forall₂ R ps vs ∧ d ∈ on :=
  ((ends_row_iff h hc).1 hm).yields h hc

/-! ## Tokens of a stream -/

/-- **The places of a stream** with certain tokens in front of them. -/
def spots (o : Origin) (Q : Value P → Prop) : Set (Value P) :=
  {c | ∃ passed rest, (∀ t ∈ rest, Q t) ∧ c = spot o passed rest}

/-- **A token is produced as it is**, and the next place has fewer of them in front. -/
theorem yields_one {o : Origin} (ho : o.ordered = true) :
    (Parser.one : Parser P).Yields rules (spots o Q) Q := by
  rintro _ ⟨passed, rest, hrest, rfl⟩ x hx
  match rest, hrest with
  | [], _ => exact .inl ((misses_one.comes (p := .one) ho).unique hx)
  | t :: rest, hrest =>
    obtain ⟨ht, hrest⟩ := List.forall_mem_cons.1 hrest
    have found : Finds rules (Parser.one : Parser P).body [t] t rest := finds_one
    exact .inr ⟨t, _, none, (found.comes ho).unique hx, ht, _, rest, hrest, rfl⟩

/-! ## Results that are made of readings -/

/-- A parser whose results stand for a reading yields what that produces. -/
theorem yields_of_result {r : Value P → Nat → Run Unit P (Reading P (Value P))}
    (hr : ∀ c, Grows (r c))
    (h : ∀ c ∈ on, Alike (fun n => p.run (quiet rules) n c) fun n =>
      r c n >>= fun m => pure m.result)
    (hQ : ∀ c ∈ on, ∀ v d, Ends (r c) (.ok (some (v, d))) → Q v ∧ d ∈ on) :
    p.Yields rules on Q := by
  intro c hc x hx
  obtain rfl | ⟨v, d, rfl, hm⟩ := comes_of_result (hr c) (h c hc) hx
  · exact .inl rfl
  · exact .inr ⟨v, d, none, rfl, hQ c hc v d hm⟩

section

open ParserAlgebra.Parser

/-! ## Sequences -/

/-- **A sequence puts the components of a row together.** -/
theorem alike_run_sequenced : Alike (fun n => (sequenced ps).run (quiet rules) n c) fun n =>
    (row rules ps c n).onValue concat >>= fun m => pure m.result := by
  refine .of_succ fun n => ?_
  rw [run_sequenced, onValue, bind_assoc, bind_assoc]
  refine bind_congr fun m => ?_
  cases m <;> exact Run.own_unit _

theorem alike_reading_sequenced : Alike (reading rules (sequenced ps) c) fun n =>
    (row rules ps c n).onValue concat :=
  alike_reading_of_result (grows_row.onValue _) alike_run_sequenced

/-- The result of a sequence stands for what the sequence is read as. -/
theorem alike_result_sequenced : Alike (fun n => (sequenced ps).run (quiet rules) n c) fun n =>
    reading rules (sequenced ps) c n >>= fun m => pure m.result :=
  alike_run_result (grows_row.onValue _) alike_run_sequenced

/-- A sequence of two is the second behind the first. -/
theorem alike_reading_pair : Alike (reading rules (sequenced [p, q]) c) fun n =>
    (reading rules p c n).followed (fun d => reading rules q d n) fun v w => concat [v, w] := by
  refine alike_reading_sequenced.trans (.of_eq fun n => ?_)
  rw [row_cons]
  simp only [row_singleton, onValue_followed, followed_onValue_right]

theorem matches_pair_iff {v : Value P} : Matches rules (sequenced [p, q]) c v d ↔
    ∃ w e x, Matches rules p c w e ∧ Matches rules q e x d ∧ v = concat [w, x] := by
  simp only [matches_iff_ends]
  exact (alike_reading_pair _).trans (ends_followed_some grows_reading fun _ => grows_reading)

theorem declines_pair_iff : Declines rules (sequenced [p, q]) c ↔
    Declines rules p c ∨ ∃ w e, Matches rules p c w e ∧ Declines rules q e := by
  simp only [declines_iff_ends, matches_iff_ends]
  exact (alike_reading_pair _).trans (ends_followed_none grows_reading fun _ => grows_reading)

/-- A sequence stays on the cursors that its members stay on. -/
theorem yields_sequenced (h : ∀ p ∈ ps, p.Yields rules on (R p))
    (hQ : ∀ vs, List.Forall₂ R ps vs → Q (concat vs)) : (sequenced ps).Yields rules on Q := by
  refine yields_of_result (fun c => grows_row.onValue concat) (fun c _ => alike_run_sequenced) ?_
  intro c hc v d hv
  obtain ⟨vs, hvs, rfl⟩ := (ends_onValue_some grows_row).1 hv
  exact (forall₂_of_ends_row h hc hvs).imp_left (hQ vs)

/-- **A sequence matches where its members match in a row.** -/
theorem matches_sequenced_iff (h : ∀ p ∈ ps, p.Yields rules on (R p)) (hc : c ∈ on) {v : Value P} :
    Matches rules (sequenced ps) c v d ↔ ∃ vs, Row rules ps c vs d ∧ v = concat vs := by
  rw [matches_iff_ends, alike_reading_sequenced (.ok _), ends_onValue_some grows_row]
  exact exists_congr fun vs => and_congr_left fun _ => ends_row_iff h hc

/-! ## Mappers that do not raise -/

/-- Parsers that run alike do so behind a mapper. -/
theorem Alike.mapped (h : Alike (fun n => p.run (quiet rules) n c) fun n => q.run (quiet rules) n c)
    (m : Mapper P) : Alike (fun n => (p.mapped m).run (quiet rules) n c) fun n =>
      (q.mapped m).run (quiet rules) n c :=
  (alike_body _ c).trans ((h.bind (grows_call _ _) (grows_call _ _) fun _ _ => .refl _).trans
    (alike_body (q.mapped m) c).symm)

section

variable {m : Mapper P} {g : Value P → Value P} (hp : p.Yields rules on Q)
  (hm : m.isFallible = false)
  (hg : ∀ v, Q v → ∃ x, Comes (fun n => m.apply (call (quiet rules) n) v.components) x ∧
    x.unwrap = g v)

include hp hm hg

/-- **A mapper is applied to what is read**, and what it answers is unwrapped. -/
theorem alike_run_mapped (hc : c ∈ on) :
    Alike (fun n => (p.mapped m).run (quiet rules) n c) fun n =>
      (reading rules p c n).onValue g >>= fun k => pure k.result :=
  alike_run_mapped_at (hp.yieldsAt hc) hm hg

theorem alike_reading_mapped (hc : c ∈ on) : Alike (reading rules (p.mapped m) c) fun n =>
    (reading rules p c n).onValue g :=
  alike_reading_of_result (grows_reading.onValue _) (alike_run_mapped hp hm hg hc)

theorem yields_mapped {Q' : Value P → Prop} (hQ : ∀ v, Q v → Q' (g v)) :
    (p.mapped m).Yields rules on Q' := by
  refine yields_of_result (fun c => grows_reading.onValue _)
    (fun c hc => alike_run_mapped hp hm hg hc) ?_
  intro c hc w d hw
  obtain ⟨v, hv, rfl⟩ := (ends_onValue_some grows_reading).1 hw
  exact (hp.of_ends hc hv).imp_left (hQ v)

end

/-! ## Skipped parsers -/

section

variable (hp : p.Yields rules on Q)

include hp

/-- **What is skipped leaves no components.** -/
theorem alike_reading_skipped (hc : c ∈ on) : Alike (reading rules p.skipped c) fun n =>
    (reading rules p c n).onValue fun _ => .composite [] none := by
  have dropped := alike_reading_mapped (m := .discard) (g := fun _ => .composite [] none) hp rfl
    (fun v _ => ⟨_, comes_action (comes_pure _), unwrap_composite_nil none⟩) hc
  have unnamed : reading rules p.skipped c = reading rules (p.mapped .discard) c := by
    funext n
    simp only [reading, skipped, run_named]
  rw [unnamed]
  exact dropped

theorem yields_skipped : p.skipped.Yields rules on (· = .composite [] none) := by
  have dropped : (p.mapped .discard).Yields rules on (· = .composite [] none) :=
    yields_mapped (m := .discard) (g := fun _ => .composite [] none) hp rfl
      (fun v _ => ⟨_, comes_action (comes_pure _), unwrap_composite_nil none⟩) fun _ _ => rfl
  intro c hc
  simp only [skipped, run_named]
  exact dropped c hc

/-- A parser is skipped where it matches. -/
theorem matches_skipped_iff (hc : c ∈ on) {v : Value P} :
    Matches rules p.skipped c v d ↔ v = .composite [] none ∧ ∃ u, Matches rules p c u d := by
  rw [matches_iff_ends, alike_reading_skipped hp hc (.ok _), ends_onValue_some grows_reading]
  constructor
  · rintro ⟨u, hu, rfl⟩
    exact ⟨rfl, u, matches_iff_ends.2 hu⟩
  · rintro ⟨rfl, u, hu⟩
    exact ⟨u, matches_iff_ends.1 hu, rfl⟩

end

/-! ## Unwrapped values -/

/-- **The values of all matches are unwrapped**, and the matches stay on the cursors. -/
abbrev Parser.Unwraps (rules : String → Option (Value P)) (on : Set (Value P)) (p : Parser P) :
    Prop := p.Yields rules on fun v => v.unwrap = v

variable (hq : sequence ps = .ok q) (h : ∀ p ∈ ps, p.Unwraps rules on)

include hq h

/-- A sequence unwraps what it puts together. -/
theorem unwraps_of_sequence : q.Unwraps rules on := by
  obtain rfl | ⟨_, rfl⟩ := sequence_eq_ok hq
  · exact h q (List.mem_singleton_self q)
  · exact yields_sequenced h fun vs _ => unwrap_unwrap _

/-- **A sequence has the components of its members**, however few there are. -/
theorem alike_parts_of_sequence (hc : c ∈ on) : Alike (parts rules [q] c) (parts rules ps c) := by
  obtain rfl | ⟨_, rfl⟩ := sequence_eq_ok hq
  · exact .refl _
  · have grows : Grows fun n => (row rules ps c n).onValue concat := grows_row.onValue _
    rw [parts_singleton]
    refine (alike_reading_sequenced.onValue grows_reading grows fun _ _ _ => rfl).trans ?_
    simp only [onValue_onValue]
    refine (Alike.refl _).onValue grows_row grows_row fun vs d hm => ?_
    obtain ⟨hvs, _⟩ := forall₂_of_ends_row h hc hm
    refine components_concat_of_unwrap fun v hv => ?_
    obtain ⟨i, hi, rfl⟩ := List.mem_iff_getElem.1 hv
    exact hvs.get (hvs.length_eq ▸ hi) hi

end

end ParserAlgebra
