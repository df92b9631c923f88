import ParserAlgebra.Catalogue.Readers
import ParserAlgebra.Proofs.Answers
import ParserAlgebra.Proofs.Arity.Single
import ParserAlgebra.Proofs.Ends.Yields
import ParserAlgebra.Proofs.Operators.Regions

/-!
# Proofs/Whitespace — a lexeme skips the whitespace behind it, and nothing else

    c ──p──▸ v, e ──blank──▸ … ──blank──▸ d        d in front of no blank
    c ──────────── lexeme p ───────────▸ v, d      c ──── lexeme (lexeme p) ────▸ v, d

The blanks behind a match are dropped one by one, for as long as there are any, and what was matched
is passed on as it is: no components come to it and none are lost.  Where no blank comes next there
is nothing to drop, so a lexeme of a lexeme does what the lexeme does.
-/

namespace ParserAlgebra

open ParserAlgebra.Parser ParserAlgebra.Run Value

variable {P : Type}

/-! ## Blanks -/

/-- **A step over a blank.**  The token under the cursor is one character of whitespace, and the
next cursor is one further. -/
def BlankStep (c t d : Value P) : Prop :=
  ∃ a b i, c = .cursor a i ∧ a.atEnd = false ∧ a.current = .ok t ∧ t.isInSet .whitespace = true ∧
    a.advance = .ok b ∧ d = .cursor b none

/-- **The cursor is in front of no blank**: it is at the end, or the token under it is something
else. -/
def NoBlank (c : Value P) : Prop :=
  ∃ a i, c = .cursor a i ∧
    (a.atEnd = true ∨ ∃ t, a.current = .ok t ∧ t.isInSet .whitespace = false)

/-- **The cursors that can be read from**: nothing keeps them from reading what is left of their
stream, and all of these tokens can be hashed and are no composites. -/
def legible : Set (Value P) :=
  {c | ∃ a i, c = .cursor a i ∧ a.Readable ∧
    ∀ t ∈ a.remaining, t.isHashable = true ∧ t.isComposite = false}

variable {c d e t u v w : Value P}

theorem BlankStep.unique (h : BlankStep c t d) (k : BlankStep c u e) : u = t ∧ e = d := by
  obtain ⟨a, b, i, rfl, _, ht, _, hb, rfl⟩ := h
  obtain ⟨_, _, _, heq, _, hu, _, he, rfl⟩ := k
  cases heq
  cases ht.symm.trans hu
  cases hb.symm.trans he
  exact ⟨rfl, rfl⟩

theorem BlankStep.not_noBlank (h : BlankStep c t d) : ¬NoBlank c := by
  rintro ⟨a, i, rfl, hno⟩
  obtain ⟨_, _, _, heq, hmore, ht, hblank, _⟩ := h
  cases heq
  obtain hend | ⟨u, hu, hno⟩ := hno
  · rw [hmore] at hend
    contradiction
  · cases ht.symm.trans hu
    rw [hblank] at hno
    contradiction

/-- **A run of blanks is determined by where it starts.** -/
theorem eq_of_blanks {blanks blanks' : List (Value P × Value P)}
    (h : Streak BlankStep NoBlank c blanks d) (k : Streak BlankStep NoBlank c blanks' e) : e = d :=
  (h.unique k (fun _ _ _ _ _ => BlankStep.unique) fun _ _ _ => BlankStep.not_noBlank).2

/-- **A cursor that can be read from** is at the end, or there is a token under it and one further
it can still be read from. -/
theorem ended_or_token (hc : c ∈ legible) : ∃ a i, c = .cursor a i ∧ (a.atEnd = true ∨
    ∃ t b, a.atEnd = false ∧ a.current = .ok t ∧ a.advance = .ok b ∧
      (t.isHashable = true ∧ t.isComposite = false) ∧ .cursor b none ∈ legible ∧
        b.remaining.length < a.remaining.length) := by
  obtain ⟨a, i, rfl, hread, htokens⟩ := hc
  refine ⟨a, i, rfl, ?_⟩
  have ends := Cursor.atEnd_eq_isEmpty hread
  cases hrest : a.remaining with
  | nil => exact .inl (by rw [ends, hrest, List.isEmpty_nil])
  | cons t ts =>
    rw [hrest] at htokens
    obtain ⟨ht, hts⟩ := List.forall_mem_cons.1 htokens
    obtain ⟨b, hb, hbts, hbread, _⟩ := Cursor.advance_eq_tail hread hrest
    refine .inr ⟨t, b, ?_, Cursor.current_eq_head hread hrest, hb, ht, ⟨b, none, rfl, hbread, ?_⟩,
      ?_⟩
    · rw [ends, hrest, List.isEmpty_cons]
    · rwa [hbts]
    · simp [hbts]

variable [Primitive P] {rules : String → Option (Value P)} {p q : Parser P}

/-- A set can be asked for a hashable token. -/
theorem returns_memberOf (cs : CharSet) (ht : t.isHashable = true) :
    Returns rules (.action (.inSet cs)) [t] (.ok (.bool (t.isInSet cs))) := by
  refine (comes_action ?_).returns
  simp only [Action.apply, memberOf, if_pos ht]
  exact comes_pure _

/-- **Where a cursor can be read from**, the next token is a blank and `whitespace` takes it, or it
is none and `whitespace` does not match. -/
theorem blank_or_noBlank (hc : c ∈ legible) :
    (NoBlank c ∧ Declines rules whitespace c) ∨
      ∃ t, ∃ d ∈ legible, (BlankStep c t d ∧ Matches rules whitespace c t d) ∧
        d.ahead < c.ahead := by
  obtain ⟨a, i, rfl, hend | ⟨t, b, hmore, ht, hb, ⟨hhash, hsimple⟩, hd, hlt⟩⟩ := ended_or_token hc
  · exact .inl ⟨⟨a, i, rfl, .inl hend⟩, (declines_one hend i).filtered rfl⟩
  · have taken : Matches rules one (.cursor a i) t (.cursor b none) := matches_one hmore ht hb i
    have asked : Returns rules _ _ _ := returns_memberOf .whitespace hhash
    cases hblank : t.isInSet .whitespace with
    | false =>
      exact .inl ⟨⟨a, i, rfl, .inr ⟨t, ht, hblank⟩⟩,
        taken.filtered_declines rfl hsimple asked hblank⟩
    | true =>
      have blank : BlankStep (.cursor a i) t (.cursor b none) :=
        ⟨a, b, i, rfl, hmore, ht, hblank, hb, rfl⟩
      have matched : Matches rules whitespace (.cursor a i) t (.cursor b none) :=
        taken.filtered rfl hsimple asked hblank
      exact .inr ⟨t, _, hd, ⟨blank, matched⟩, hlt⟩

/-- **All blanks are skipped**, up to where there is none. -/
theorem exists_blanks (rules : String → Option (Value P)) (hc : c ∈ legible) :
    ∃ blanks, ∃ d ∈ legible, Streak BlankStep NoBlank c blanks d ∧
      Matches rules spaces c (.composite [] none) d := by
  let step : Value P → Value P → Value P → Prop := fun c t d =>
    BlankStep c t d ∧ Matches rules whitespace c t d
  let stop : Value P → Prop := fun c => NoBlank c ∧ Declines rules whitespace c
  have settled : ∀ c ∈ legible, stop c ∨ ∃ t, ∃ d ∈ legible, step c t d ∧ d.ahead < c.ahead :=
    fun c hc => blank_or_noBlank hc
  obtain ⟨blanks, d, hd, hs, _⟩ := exists_streak ahead settled hc
  have blank : Streak BlankStep NoBlank c blanks d := hs.mono (fun _ _ _ h => h.1) fun _ h => h.1
  have matched : Streak (Matches rules whitespace) (Declines rules whitespace) c blanks d :=
    hs.mono (fun _ _ _ h => h.2) fun _ h => h.2
  refine ⟨blanks, d, hd, blank, ?_⟩
  simp only [Matches, spaces, run_named]
  exact matched.gathered.skipped

/-- Where there is no blank nothing is skipped. -/
theorem matches_spaces_of_noBlank (hc : c ∈ legible) (h : NoBlank c) :
    Matches rules spaces c (.composite [] none) c := by
  obtain ⟨blanks, d, _, hs, hm⟩ := exists_blanks rules hc
  obtain rfl := eq_of_blanks hs (.nil h)
  exact hm

/-- One token further one can still go on reading. -/
theorem legible_of_matches_one (hc : c ∈ legible) (h : Matches rules one c t d) : d ∈ legible := by
  obtain ⟨a, b, i, rfl, _, hb, rfl⟩ := exists_current_of_matches_one h
  obtain ⟨_, _, heq, hend | ⟨_, _, _, _, hb', _, hd, _⟩⟩ := ended_or_token hc
  · cases heq
    exact absurd (declines_one hend i) h.not_declines
  · cases heq
    cases hb.symm.trans hb'
    exact hd

/-! ## Lexemes -/

/-- **The matches at a cursor have unwrapped values** and end where one can go on reading. -/
def Parser.LegibleAt (rules : String → Option (Value P)) (p : Parser P) (c : Value P) : Prop :=
  ∀ v d, Matches rules p c v d → v.unwrap = v ∧ d ∈ legible

/-- So they do for a parser of a single token. -/
theorem legibleAt_satisfy {f : Callable P} (hc : c ∈ legible) :
    (satisfy f).LegibleAt rules c := by
  intro v d h
  obtain ⟨x, b, hx, _, _, rfl⟩ := matches_satisfy_iff.1 h
  exact ⟨unwrap_unwrap _, legible_of_matches_one hc hx⟩

section

variable (hp : p.LegibleAt rules c)

include hp

/-- **A lexeme is a match and all blanks behind it**, with the value of the match. -/
theorem matches_lexeme_iff : Matches rules (sequenced [p, spaces]) c w d ↔
    ∃ v e blanks, Matches rules p c v e ∧ w = v.anew ∧ Streak BlankStep NoBlank e blanks d := by
  constructor
  · intro h
    obtain ⟨v, e, x, hv, hx, rfl⟩ := matches_pair_iff.1 h
    obtain ⟨hunwrap, he⟩ := hp v e hv
    obtain ⟨blanks, d', _, hs, hm⟩ := exists_blanks rules he
    obtain ⟨rfl, rfl⟩ := hm.unique hx
    exact ⟨v, e, blanks, hv, concat_empty_right hunwrap none, hs⟩
  · rintro ⟨v, e, blanks, hv, rfl, hs⟩
    obtain ⟨hunwrap, he⟩ := hp v e hv
    obtain ⟨blanks', d', _, hs', hm⟩ := exists_blanks rules he
    obtain rfl := eq_of_blanks hs hs'
    rw [← concat_empty_right hunwrap none]
    exact hv.pair hm

/-- Where there is a match there is a lexeme, with the same value. -/
theorem exists_matches_lexeme (h : Matches rules p c v e) :
    ∃ d, Matches rules (sequenced [p, spaces]) c v.anew d := by
  obtain ⟨blanks, d, _, hs, _⟩ := exists_blanks rules (hp v e h).2
  exact ⟨d, (matches_lexeme_iff hp).2 ⟨v, e, blanks, h, rfl, hs⟩⟩

/-- There is none where there is no match. -/
theorem declines_lexeme_iff : Declines rules (sequenced [p, spaces]) c ↔ Declines rules p c := by
  refine declines_pair_iff.trans ⟨?_, .inl⟩
  rintro (h | ⟨v, e, hv, hno⟩)
  · exact h
  · obtain ⟨_, _, _, _, hm⟩ := exists_blanks rules (hp v e hv).2
    exact absurd hno hm.not_declines

theorem noBlank_of_matches_lexeme (h : Matches rules (sequenced [p, spaces]) c w d) :
    NoBlank d ∧ d ∈ legible ∧ w.unwrap = w ∧ w.anew = w := by
  obtain ⟨v, e, blanks, hv, rfl, hs⟩ := (matches_lexeme_iff hp).1 h
  obtain ⟨hunwrap, he⟩ := hp v e hv
  obtain ⟨_, d', hd, hs', _⟩ := exists_blanks rules he
  obtain rfl := eq_of_blanks hs hs'
  exact ⟨hs.stopped, hd, unwrap_anew hunwrap, anew_anew v⟩

/-- **A lexeme of a lexeme is the lexeme.** -/
theorem alike_lexeme_twice :
    Alike (fun n => (sequenced [sequenced [p, spaces], spaces]).run (quiet rules) n c) fun n =>
      (sequenced [p, spaces]).run (quiet rules) n c := by
  have nothing : ∀ w d, Ends (reading rules (sequenced [p, spaces]) c) (.ok (some (w, d))) →
      Alike (reading rules spaces d) fun _ => pure (some (.composite [] none, d)) := by
    intro w d hw
    obtain ⟨hno, hd, _⟩ := noBlank_of_matches_lexeme hp (matches_iff_ends.2 hw)
    exact .of_comes (matches_iff_ends.1 (matches_spaces_of_noBlank hd hno))
  have read : Alike (reading rules (sequenced [sequenced [p, spaces], spaces]) c)
      (reading rules (sequenced [p, spaces]) c) := by
    refine alike_reading_pair.trans ?_
    refine ((Alike.refl _).followed (g := fun _ d => pure (some (.composite [] none, d)))
      grows_reading grows_reading (fun _ => grows_reading) (fun _ => grows_const _) nothing
      _).trans ?_
    simp only [followed_pure]
    refine ((Alike.refl _).onValue (l := fun w => w) grows_reading grows_reading
      fun w d hw => ?_).trans (.of_eq fun n => onValue_id _)
    obtain ⟨_, _, hunwrap, hanew⟩ := noBlank_of_matches_lexeme hp (matches_iff_ends.2 hw)
    rw [concat_empty_right hunwrap, hanew]
  exact alike_result_sequenced.trans ((read.result grows_reading grows_reading).trans
    alike_result_sequenced.symm)

end

/-- **Lexemes over and over leave no blank behind the last of them.** -/
theorem noBlank_of_matches_repeat1 (hp : ∀ c ∈ legible, p.LegibleAt rules c) {f : Callable P}
    (hc : c ∈ legible) (h : Matches rules ((sequenced [p, spaces]).repeat1 f) c v d) :
    NoBlank d := by
  have step {c w d : Value P} (hc : c ∈ legible)
      (h : Matches rules (sequenced [p, spaces]) c w d) : NoBlank d ∧ d ∈ legible := by
    obtain ⟨hno, hd, _⟩ := noBlank_of_matches_lexeme (hp c hc) h
    exact ⟨hno, hd⟩
  obtain ⟨w, e, vs, hw, hvs, _⟩ := matches_repeat1_iff.1 h
  obtain ⟨steps, hs, -⟩ := comes_many_iff.1 hvs
  have first := step hc hw
  clear h hw hvs
  induction hs with
  | nil => exact first.1
  | cons hw _ ih => exact ih (step first.2 hw)

omit [Primitive P] in
/-- Nothing added to a number is that number, if it is whole. -/
theorem Number.whole?_add_zero (n : Number) : (n.add (.int 0)).whole? = n.whole? := by
  cases n <;> simp [Number.add, Number.whole?]

omit [Primitive P] in
/-- **A lexeme is declared to produce as much as its parser.** -/
theorem arity_lexeme [Labelled P] (hq : p.lexeme = .ok q) : q.arity = p.arity := by
  obtain hone | ⟨hsum, rfl⟩ := sequence_eq_ok hq
  · simp at hone
  · cases hd : p.declared with
    | none => simp [arity, sequenced, sumArity, hd]
    | some x =>
      have nothing : (spaces : Parser P).declared = some (.ofInt 0) := rfl
      have number : x.number?.isSome = true := by
        have known : knownArities [p, spaces] = [x, .ofInt 0] := by
          simp [knownArities, hd, nothing]
        rw [summable, known, List.all_cons] at hsum
        obtain hany | hall := Bool.or_eq_true_iff.1 hsum
        · simp [hd, nothing] at hany
        · exact (Bool.and_eq_true_iff.1 hall).1
      obtain ⟨k, hk⟩ := Option.isSome_iff_exists.1 number
      have rest : sumArity [(spaces : Parser P)] = some (.int 0) := rfl
      have total : sumArity [p, spaces] = some (k.add (.int 0)) := by
        rw [sumArity, hd, rest]
        simp [hk]
      rw [arity_of_declared hd hk, ← Number.whole?_add_zero k]
      simp [arity, sequenced, total]

omit [Primitive P] in
/-- A typed parser has a lexeme. -/
theorem lexeme_of_typed [Labelled P] (hp : p.Typed) :
    p.lexeme = .ok (sequenced [p, spaces]) := by
  have typed : ∀ r ∈ [p, spaces], r.Typed := by
    refine List.forall_mem_cons.2 ⟨hp, fun r hr => ?_⟩
    obtain rfl := List.mem_singleton.1 hr
    exact ⟨rfl, fun n hn => by cases hn; rfl⟩
  exact sequence_cons_cons (summable_of_typed typed) (allNamed_of_typed typed)

omit [Primitive P] in
/-- A lexeme has one as well. -/
theorem lexeme_lexeme [Labelled P] (hq : p.lexeme = .ok q) :
    q.lexeme = .ok (sequenced [q, spaces]) := by
  obtain rfl := eq_sequenced_of_sequence hq
  exact lexeme_of_typed (typed_sequenced _)

/-- **A lexeme skips the whitespace behind its match, and nothing else.**  It is admitted for any
typed parser, and declares the same arity.  Where the parser matches, the lexeme does so with the
same value, behind the run of blanks that comes next; so it is in front of no blank.  Where the
parser does not match, neither does the lexeme.  A lexeme of the lexeme ends as it does, and behind
repeated lexemes there is no blank either. -/
theorem lexeme_skips_whitespace (p : Parser P) (rules : String → Option (Value P)) :
    (p.Typed → ∃ q, p.lexeme = .ok q) ∧ ∀ q, p.lexeme = .ok q →
    q.arity = p.arity ∧
    (∀ c, p.LegibleAt rules c → (Declines rules q c ↔ Declines rules p c) ∧
      (∀ v e, Matches rules p c v e → ∃ d, Matches rules q c v.anew d) ∧
      ∀ w d, (Matches rules q c w d ↔
        ∃ v e blanks, Matches rules p c v e ∧ w = v.anew ∧ Streak BlankStep NoBlank e blanks d) ∧
        (Matches rules q c w d → NoBlank d)) ∧
    (∃ r, q.lexeme = .ok r ∧ r.arity = p.arity ∧ ∀ c, p.LegibleAt rules c →
      Alike (fun n => r.run (quiet rules) n c) fun n => q.run (quiet rules) n c) ∧
    ((∀ c ∈ legible, p.LegibleAt rules c) → ∀ f, ∀ c ∈ legible, ∀ v d,
      Matches rules (q.repeat1 f) c v d → NoBlank d) := by
  refine ⟨fun hp => ⟨_, lexeme_of_typed hp⟩, fun q hq => ?_⟩
  have hr := lexeme_lexeme hq
  refine ⟨arity_lexeme hq, ?_, ⟨_, hr, (arity_lexeme hr).trans (arity_lexeme hq), ?_⟩, ?_⟩
  all_goals obtain rfl := eq_sequenced_of_sequence hq
  · exact fun c hp => ⟨declines_lexeme_iff hp, fun v e => exists_matches_lexeme hp,
      fun w d => ⟨matches_lexeme_iff hp, fun h => (noBlank_of_matches_lexeme hp h).1⟩⟩
  · exact fun c => alike_lexeme_twice
  · exact fun hp f c hc v d => noBlank_of_matches_repeat1 hp hc

/-- In `7 ⇥8` the digit and the two blanks behind it are a lexeme, and also a lexeme of that lexeme:
its value is the digit, and the next digit comes next. -/
theorem blanks_behind_digit :
    let rules : String → Option (Value Catalogue) := fun _ => none
    let o : Origin := ⟨none, true⟩
    let p : Parser Catalogue := charIn .digits
    let c : Value Catalogue := spot o [] (characters "7 \t8")
    let e : Value Catalogue := spot o (characters "7") (characters " \t8")
    let d : Value Catalogue := spot o (characters "\t 7") (characters "8")
    c ∈ legible ∧ (∀ c ∈ legible, p.LegibleAt rules c) ∧ Matches rules p c (char '7') e ∧
    ∃ q r, p.lexeme = .ok q ∧ q.lexeme = .ok r ∧ Matches rules q c (char '7') d ∧
      Matches rules r c (char '7') d ∧ NoBlank d ∧
      ∀ v d, Matches rules (q.repeat1 gathered) c v d → NoBlank d := by
  intro rules o p c e d
  have hc : c ∈ legible := ⟨_, _, rfl, rfl, by decide⟩
  have hp : ∀ c ∈ legible, p.LegibleAt rules c := fun c => legibleAt_satisfy
  have digit : Finds rules p.body [char '7'] (char '7') (characters " \t8") :=
    finds_charIn (by decide)
  have matched : Matches rules p c (char '7') e := digit.matches rfl
  have digitNext : NoBlank d := ⟨_, _, rfl, .inr ⟨_, rfl, by decide⟩⟩
  have blanks : Streak BlankStep NoBlank e [(char ' ', _), (char '\t', d)] d :=
    .cons ⟨_, _, _, rfl, rfl, rfl, by decide, rfl, rfl⟩
      (.cons ⟨_, _, _, rfl, rfl, rfl, by decide, rfl, rfl⟩ (.nil digitNext))
  have hq : p.lexeme = .ok (sequenced [p, spaces]) := rfl
  obtain ⟨-, skips, ⟨r, hr, -, twice⟩, again⟩ := (lexeme_skips_whitespace p rules).2 _ hq
  obtain ⟨-, -, lexeme⟩ := skips c (hp c hc)
  obtain ⟨iff, stops⟩ := lexeme (char '7') d
  have once := iff.2 ⟨_, e, _, matched, rfl, blanks⟩
  have same : Matches rules r c (char '7') d := by
    obtain ⟨k, hk⟩ := once
    exact ⟨k, (twice c (hp c hc) (.ok _)).2 hk⟩
  exact ⟨hc, hp, matched, _, r, hq, hr, once, same, stops once, again hp gathered c hc⟩

end ParserAlgebra
