import ParserAlgebra.Catalogue.Readers
import ParserAlgebra.Proofs.Guarded.Stream

/-!
# Proofs/Guarded — a whole parse, and a parse with the end of the input as a guard

    all of the tokens by p                   some of the tokens by p & end_of_input

    the value of p                           the value of p
    what is left over is reported            no match is reported
    no match is reported                     no match is reported
    an error of p                            the same error of p

A parse that has to consume all tokens looks for the end of the input itself.  The guard does so in
the grammar, and has no components, so nothing of it is left in the value.
-/

namespace ParserAlgebra

variable {σ P : Type} [Supply σ] [Primitive P]

/-! ## The run of a parse -/

namespace Parser

/-- The parser run at the start of a stream. -/
def runFromStart (ctx : Context P) (fuel : Nat) (p : Parser P) (o : Origin)
    (tokens : List (Value P)) : Run σ P (Value P) := do
  let start ← Run.own (.cursor (Cursor.start o tokens) none)
  p.run ctx fuel start

/-- What a parse makes of the result of that run. -/
def conclude (p : Parser P) (o : Origin) (tokens : List (Value P)) (full : Bool)
    (result : Value P) : Run σ P (Value P) :=
  if result.isTruthy then do
    let next ← Run.ofExcept result.nextField
    if full then
      let c ← Run.ofExcept next.asCursor
      if c.atEnd then Run.ofExcept result.valueField
      else
        let position := c.position?.getD (.int 0)
        Run.raise (report "Expected the end of the input." position o tokens)
    else Run.ofExcept result.valueField
  else do
    let p ← Run.ofExcept p.titled
    Run.raise (report ("Failed to parse " ++ p.title ++ ".") (.int 0) o tokens)

/-- The report that there is no match. -/
def noMatch (p : Parser P) (o : Origin) (tokens : List (Value P)) : Error P :=
  report ("Failed to parse " ++ p.title ++ ".") (.int 0) o tokens

/-- The report that there is more at a position. -/
def leftover (position : Number) (o : Origin) (tokens : List (Value P)) : Error P :=
  report "Expected the end of the input." position o tokens

section

variable {ctx : Context P} {fuel : Nat} {p : Parser P} {o : Origin} {tokens : List (Value P)}
  {full : Bool} {v e x : Value P} {a : Cursor (Value P)} {i k : Identity} {s t : σ}

theorem parse_eq_bind : (p.parse ctx fuel o tokens full : Run σ P _) =
    p.runFromStart ctx fuel o tokens >>= p.conclude o tokens full := by
  simp only [runFromStart, bind_assoc]
  rfl

omit [Supply σ] in
/-- A match is concluded with its value at the end, and with a report elsewhere. -/
theorem conclude_full :
    ((p.conclude o tokens true (.success v (.cursor a i) k) : Run σ P _).start t).outcome =
      if a.atEnd then .ok v else
        .error (.raised (leftover (a.position?.getD (.int 0)) o tokens)) := by
  have concluded : (p.conclude o tokens true (.success v (.cursor a i) k) : Run σ P _) =
      if a.atEnd then pure v else Run.raise (leftover (a.position?.getD (.int 0)) o tokens) := rfl
  rw [concluded]
  split <;> rfl

omit [Supply σ] in
/-- No match is concluded with a report, if the parser is named by a text. -/
theorem conclude_falsy (hx : x.isTruthy = false) (hp : p.name.isText = true) :
    ((p.conclude o tokens full x : Run σ P _).start t).outcome =
      .error (.raised (p.noMatch o tokens)) := by
  rw [conclude, if_neg (by simp [hx]), titled_of_isText hp]
  rfl

end

end Parser

/-! ## Whole and guarded parses -/

section

open ParserAlgebra.Parser

/-- How the run from the start of a stream ends. -/
abbrev Parser.runEnds (rules : String → Option (Value P)) (fuel : Nat) (p : Parser P) (o : Origin)
    (tokens : List (Value P)) (s : σ) : Except (Halt (Error P)) (Value P) :=
  ((p.runFromStart (quiet rules) fuel o tokens).start s).outcome

/-- How a parse ends. -/
abbrev Parser.parseEnds (rules : String → Option (Value P)) (fuel : Nat) (p : Parser P) (o : Origin)
    (tokens : List (Value P)) (full : Bool) (s : σ) : Except (Halt (Error P)) (Value P) :=
  ((p.parse (quiet rules) fuel o tokens full).start s).outcome

/-- **The parse itself reports**: the parser's run returned, and the parse ends with a report. -/
def Parser.Reports (rules : String → Option (Value P)) (fuel : Nat) (p : Parser P) (o : Origin)
    (tokens : List (Value P)) (full : Bool) (s : σ) : Prop :=
  (∃ x, p.runEnds rules fuel o tokens s = .ok x) ∧
    ∃ r, p.parseEnds rules fuel o tokens full s = .error (.raised (.parse r none))

/-- **The whole parse by `p` and the parse by `g`**, with one unit more, agree from a supply. -/
structure Guards (rules : String → Option (Value P)) (fuel : Nat) (p g : Parser P) (o : Origin)
    (tokens : List (Value P)) (s : σ) : Prop where
  /-- What the one returns the other does; a composite is a new one. -/
  returns : ∀ v, p.parseEnds rules fuel o tokens true s = .ok v →
    ∃ t : σ, g.parseEnds rules (fuel + 1) o tokens false s = .ok (v.anew.numbered t).1
  returned : ∀ w, g.parseEnds rules (fuel + 1) o tokens false s = .ok w →
    ∃ (v : Value P) (t : σ), p.parseEnds rules fuel o tokens true s = .ok v ∧
      w = (v.anew.numbered t).1
  reports : p.Reports rules fuel o tokens true s ↔ g.Reports rules (fuel + 1) o tokens false s
  /-- What the run of `p` halts with passes through both, and they halt with nothing else but their
  own reports. -/
  passes : ∀ h, p.runEnds rules fuel o tokens s = .error h →
    p.parseEnds rules fuel o tokens true s = .error h ∧
      g.parseEnds rules (fuel + 1) o tokens false s = .error h
  halts : ∀ h, p.parseEnds rules fuel o tokens true s = .error h ∨
      g.parseEnds rules (fuel + 1) o tokens false s = .error h →
    p.runEnds rules fuel o tokens s = .error h ∨ p.Reports rules fuel o tokens true s
  /-- What is left over is reported at the number of tokens consumed, and the note says so. -/
  leftover : ∀ v d i k, p.runEnds rules fuel o tokens s = .ok (.success v (.cursor d i) k) →
    d.atEnd = false → ∃ (n : Nat) (r : Report (Value P)), d.place = .int n ∧ n < tokens.length ∧
      p.parseEnds rules fuel o tokens true s = .error (.raised (.parse r none)) ∧
      r.position.whole? = some (n : Int) ∧ r.tokens = tokens ∧
      r.firstNote = "At position " ++ r.position.render
  failed : ∀ x, p.runEnds rules fuel o tokens s = .ok x → x.isTruthy = false →
    ∃ r : Report (Value P), p.parseEnds rules fuel o tokens true s =
      .error (.raised (.parse r none)) ∧ r.position = .int 0

/-- **How both parses end**: as the run halts, with one value, or with a report each. -/
inductive EndsAlike (rules : String → Option (Value P)) (fuel : Nat) (p g : Parser P) (o : Origin)
    (tokens : List (Value P)) (s : σ) : Prop
  | halt {h} (hp : p.runEnds rules fuel o tokens s = .error h)
      (hg : g.runEnds rules (fuel + 1) o tokens s = .error h)
  | value {v} {t : σ} (hp : p.parseEnds rules fuel o tokens true s = .ok v)
      (hg : g.parseEnds rules (fuel + 1) o tokens false s = .ok (v.anew.numbered t).1)
  | report (hp : p.Reports rules fuel o tokens true s)
      (hg : g.Reports rules (fuel + 1) o tokens false s)

variable {rules : String → Option (Value P)} {fuel : Nat} {p g : Parser P} {o : Origin}
  {tokens : List (Value P)} {s t : σ} {v x : Value P} {a : Cursor (Value P)} {i k : Identity}

/-- Where a parse starts from, which is the same for all parsers. -/
theorem exists_start (rules : String → Option (Value P)) (o : Origin) (tokens : List (Value P))
    (s : σ) : ∃ (c : Value P) (s' : σ), ∀ (p : Parser P) (n : Nat),
      p.runEnds rules n o tokens s = ((p.run (quiet rules) n c).start s').outcome :=
  ⟨_, _, fun _ _ => (Run.gives_own (.cursor (Cursor.start o tokens) none) s).outcome_bind _⟩

/-- **What becomes of the run of the guarded parser** is settled by how the run of the parser ends:
it halts as that does, gives the same value at the end, and has no match otherwise. -/
theorem runEnds_guarded_of_halt {h : Halt (Error P)}
    (hp : p.runEnds rules fuel o tokens s = .error h) :
    (guarded p).runEnds rules (fuel + 1) o tokens s = .error h := by
  obtain ⟨c, s', start⟩ := exists_start rules o tokens s
  rw [start] at hp ⊢
  exact outcome_sequenced_of_halt hp

theorem runEnds_guarded_of_falsy (hp : p.runEnds rules fuel o tokens s = .ok x)
    (hx : x.isTruthy = false) :
    (guarded p).runEnds rules (fuel + 1) o tokens s = .ok .failure := by
  obtain ⟨c, s', start⟩ := exists_start rules o tokens s
  rw [start] at hp ⊢
  exact (gives_sequenced_none (gives_row_none ⟨hp, rfl⟩ hx)).1

theorem runEnds_guarded_of_match
    (hp : p.runEnds rules fuel o tokens s = .ok (.success v (.cursor a i) k)) :
    (a.atEnd = true → v.unwrap = v → ∃ (t : σ) (e : Value P) (j : Identity),
      (guarded p).runEnds rules (fuel + 1) o tokens s =
        .ok (.success (v.anew.numbered t).1 e j)) ∧
    (a.atEnd = false → (guarded p).runEnds rules (fuel + 1) o tokens s = .ok .failure) := by
  obtain ⟨c, s', start⟩ := exists_start rules o tokens s
  rw [start] at hp ⊢
  cases fuel with
  | zero => contradiction
  | succ n =>
    refine ⟨fun ha hv => ?_, fun ha => (gives_guarded_leftover ⟨hp, rfl⟩ ha).1⟩
    obtain ⟨t, e, j, u, hg⟩ := gives_guarded ⟨hp, rfl⟩ ha hv
    exact ⟨t, e, j, hg.1⟩

/-- A parse goes on from how its run ends. -/
theorem parseEnds_of_ok (full : Bool) (hp : p.runEnds rules fuel o tokens s = .ok x) :
    ∃ t : σ, p.parseEnds rules fuel o tokens full s =
      ((p.conclude o tokens full x).start t).outcome := by
  rw [parseEnds, parse_eq_bind]
  exact ⟨_, Run.Gives.outcome_bind ⟨hp, rfl⟩ _⟩

theorem parseEnds_of_halt {full : Bool} {h : Halt (Error P)}
    (hp : p.runEnds rules fuel o tokens s = .error h) :
    p.parseEnds rules fuel o tokens full s = .error h := by
  rw [parseEnds, parse_eq_bind]
  exact Run.outcome_bind_of_halt hp _

/-- Whoever's run returned no match reports it. -/
theorem reports_of_falsy {full : Bool} (hp : p.runEnds rules fuel o tokens s = .ok x)
    (hx : x.isTruthy = false) (hname : p.name.isText = true) :
    p.parseEnds rules fuel o tokens full s = .error (.raised (p.noMatch o tokens)) ∧
      p.Reports rules fuel o tokens full s := by
  obtain ⟨t, ht⟩ := parseEnds_of_ok full hp
  rw [conclude_falsy hx hname] at ht
  exact ⟨ht, ⟨x, hp⟩, _, ht⟩

/-- What is left over behind a match is reported at the next cursor. -/
theorem reports_of_leftover (hp : p.runEnds rules fuel o tokens s =
      .ok (.success v (.cursor a i) k)) (ha : a.atEnd = false) :
    p.parseEnds rules fuel o tokens true s =
        .error (.raised (leftover (a.position?.getD (.int 0)) o tokens)) ∧
      p.Reports rules fuel o tokens true s := by
  obtain ⟨t, ht⟩ := parseEnds_of_ok true hp
  rw [conclude_full, if_neg (Bool.eq_false_iff.1 ha)] at ht
  exact ⟨ht, ⟨_, hp⟩, _, ht⟩

/-! ## Parses that end alike -/

namespace EndsAlike

variable {w : Value P} (h : EndsAlike rules fuel p g o tokens s)

include h

theorem returns (hv : p.parseEnds rules fuel o tokens true s = .ok v) :
    ∃ t : σ, g.parseEnds rules (fuel + 1) o tokens false s = .ok (v.anew.numbered t).1 := by
  cases h with
  | halt hrun _ => exact absurd (hv.symm.trans (parseEnds_of_halt hrun)) nofun
  | value hwhole hguarded =>
    cases hwhole.symm.trans hv
    exact ⟨_, hguarded⟩
  | report hreports _ =>
    obtain ⟨_, r, hr⟩ := hreports
    exact absurd (hv.symm.trans hr) nofun

theorem returned (hw : g.parseEnds rules (fuel + 1) o tokens false s = .ok w) :
    ∃ (v : Value P) (t : σ), p.parseEnds rules fuel o tokens true s = .ok v ∧
      w = (v.anew.numbered t).1 := by
  cases h with
  | halt _ hrun => exact absurd (hw.symm.trans (parseEnds_of_halt hrun)) nofun
  | value hwhole hguarded => exact ⟨_, _, hwhole, Except.ok.inj (hw.symm.trans hguarded)⟩
  | report _ hreports =>
    obtain ⟨_, r, hr⟩ := hreports
    exact absurd (hw.symm.trans hr) nofun

theorem reports :
    p.Reports rules fuel o tokens true s ↔ g.Reports rules (fuel + 1) o tokens false s := by
  cases h with
  | halt hrun hrun' =>
    exact ⟨fun ⟨⟨_, hx⟩, _⟩ => absurd (hrun.symm.trans hx) nofun,
      fun ⟨⟨_, hx⟩, _⟩ => absurd (hrun'.symm.trans hx) nofun⟩
  | value hwhole hguarded =>
    exact ⟨fun ⟨_, _, hr⟩ => absurd (hwhole.symm.trans hr) nofun,
      fun ⟨_, _, hr⟩ => absurd (hguarded.symm.trans hr) nofun⟩
  | report hreports hreports' => exact ⟨fun _ => hreports', fun _ => hreports⟩

/-- Neither halts with anything but what the run halts with, or its own report. -/
theorem halts {halt : Halt (Error P)} (hh : p.parseEnds rules fuel o tokens true s = .error halt ∨
      g.parseEnds rules (fuel + 1) o tokens false s = .error halt) :
    p.runEnds rules fuel o tokens s = .error halt ∨ p.Reports rules fuel o tokens true s := by
  cases h with
  | halt hrun hrun' =>
    obtain hwhole | hguarded := hh
    · cases (parseEnds_of_halt hrun).symm.trans hwhole
      exact .inl hrun
    · cases (parseEnds_of_halt hrun').symm.trans hguarded
      exact .inl hrun
  | value hv hw =>
    obtain hwhole | hguarded := hh
    · exact absurd (hv.symm.trans hwhole) nofun
    · exact absurd (hw.symm.trans hguarded) nofun
  | report hreports _ => exact .inr hreports

end EndsAlike

/-! ## The guarded parser -/

/-- Parsers that can be put in a row are named by texts. -/
theorem isText_of_sequence {q : Parser P} (hg : Parser.sequence [p, q] = .ok g) :
    p.name.isText = true := by
  simp only [Parser.sequence] at hg
  split at hg
  · rename_i h
    simp only [Bool.and_eq_true, allNamed, List.all_cons] at h
    exact h.2.1
  · contradiction

/-- **A parser that stays on the stream does so in a parse.** -/
theorem Parser.KeepsTo.runFromStart (h : p.KeepsTo σ rules fuel o tokens) :
    (p.runFromStart (quiet rules) fuel o tokens : Run σ P _).Ensures (StaysOn o tokens) := by
  have start : (Run.own (.cursor (Cursor.start o tokens) none) : Run σ P _).Ensures
      fun c => ∃ i, c = .cursor (Cursor.start o tokens) i :=
    Run.ensures_own fun s => ⟨_, congrArg Prod.fst (Value.numbered_cursor _ none s)⟩
  refine start.bind ?_
  rintro _ ⟨i, rfl⟩
  exact h _ i (Cursor.onStream_indexed o [] tokens)

section

variable (hg : Parser.sequence [p, endOfInput] = .ok g)
  (hp : (p.runFromStart (quiet rules) fuel o tokens : Run σ P _).Ensures (StaysOn o tokens))

include hg hp

theorem endsAlike_guarded (s : σ) : EndsAlike rules fuel p g o tokens s := by
  obtain rfl := eq_sequenced_of_sequence hg
  have hname := isText_of_sequence hg
  match hrun : p.runEnds rules fuel o tokens s with
  | .error h => exact .halt hrun (runEnds_guarded_of_halt hrun)
  | .ok x =>
    cases hx : x.isTruthy with
    | false =>
      have none := runEnds_guarded_of_falsy hrun hx
      exact .report (reports_of_falsy hrun hx hname).2 (reports_of_falsy none rfl rfl).2
    | true =>
      obtain ⟨v, d, i, k, rfl, hv, _⟩ := hp s x hrun hx
      obtain ⟨found, none⟩ := runEnds_guarded_of_match hrun
      cases hd : d.atEnd with
      | false =>
        exact .report (reports_of_leftover hrun hd).2 (reports_of_falsy (none hd) rfl rfl).2
      | true =>
        obtain ⟨t, e, j, hfound⟩ := found hd hv
        obtain ⟨_, whole⟩ := parseEnds_of_ok true hrun
        obtain ⟨_, some⟩ := parseEnds_of_ok false hfound
        rw [conclude_full, if_pos hd] at whole
        exact .value whole some

/-- **A whole parse is a parse with the end of the input as a guard.**  Whatever the parser is, if
its matches stay on the stream and its values cannot be unwrapped, the one returns a value where the
other does, both report where one does, and what else the parser raises passes through both. -/
theorem whole_parse_guards (s : σ) : Guards rules fuel p g o tokens s where
  returns _ := (endsAlike_guarded hg hp s).returns
  returned _ := (endsAlike_guarded hg hp s).returned
  reports := (endsAlike_guarded hg hp s).reports
  passes h hrun := by
    refine ⟨parseEnds_of_halt hrun, parseEnds_of_halt ?_⟩
    obtain rfl := eq_sequenced_of_sequence hg
    exact runEnds_guarded_of_halt hrun
  halts _ := (endsAlike_guarded hg hp s).halts
  leftover v d i k hrun hd := by
    obtain ⟨_, d, i, k, hx, _, position, n, hat, hwhole⟩ := hp s _ hrun rfl
    cases hx
    obtain ⟨m, rfl, hplace, hlt⟩ := Cursor.place_of_whole hat hwhole
    obtain ⟨hshown, hinside⟩ := Cursor.position?_at? hat
    have ends := (reports_of_leftover hrun hd).1
    rw [hshown, Option.getD_some] at ends
    exact ⟨m, _, hplace, hlt hd, ends, hwhole, rfl,
      Report.note_of_atMost (Bool.and_eq_true _ _ ▸ hinside).2⟩
  failed x hrun hx := ⟨_, (reports_of_falsy hrun hx (isText_of_sequence hg)).1, rfl⟩

end

/-- Two letters, of two and of three: all of the input, and all but the last.  Of `ab` both parses
return the two letters; of `abc` both report, the whole parse that there is more at position 2. -/
theorem two_letters_guard :
    let rules : String → Option (Value Catalogue) := fun _ => none
    let o : Origin := ⟨some 1, true⟩
    let two : Parser Catalogue := sequenced [one, one]
    let ab : List (Value Catalogue) := [.ofText "a", .ofText "b"]
    let abc : List (Value Catalogue) := [.ofText "a", .ofText "b", .ofText "c"]
    ∃ g, Parser.sequence [two, endOfInput] = .ok g ∧
      (∀ tokens ∈ [ab, abc],
        (two.runFromStart (quiet rules) 3 o tokens : Run Nat Catalogue _).Ensures
          (StaysOn o tokens) ∧ Guards rules 3 two g o tokens (1024 : Nat)) ∧
      (∃ i, two.parseEnds rules 3 o ab true (1024 : Nat) = .ok (.composite ab i)) ∧
      (∃ i, g.parseEnds rules 4 o ab false (1024 : Nat) = .ok (.composite ab i)) ∧
      (∃ r, two.parseEnds rules 3 o abc true (1024 : Nat) = .error (.raised (.parse r none)) ∧
        r.position.whole? = some 2 ∧ r.tokens = abc ∧
        r.firstNote = "At position " ++ r.position.render) ∧
      g.Reports rules 4 o abc false (1024 : Nat) := by
  intro rules o two ab abc
  have hg : Parser.sequence [two, endOfInput] = .ok (guarded two) := rfl
  have keeps : ∀ tokens ∈ [ab, abc], two.KeepsTo Nat rules 3 o tokens := by
    intro tokens htokens
    have texts : ∀ x ∈ tokens, x.unwrap = x := by
      intro x hx
      simp only [List.mem_cons, List.not_mem_nil, or_false] at htokens
      rcases htokens with rfl | rfl <;>
      · simp only [ab, abc, List.mem_cons, List.not_mem_nil, or_false] at hx
        rcases hx with rfl | rfl | rfl <;> exact Value.unwrap_of_isComposite rfl
    exact keepsTo_sequenced (by simpa using keepsTo_one texts)
  have guards : ∀ tokens ∈ [ab, abc], Guards rules 3 two (guarded two) o tokens (1024 : Nat) :=
    fun tokens htokens => whole_parse_guards hg (keeps tokens htokens).runFromStart 1024
  have all := guards ab List.mem_cons_self
  have more := guards abc (List.mem_cons_of_mem _ List.mem_cons_self)
  have whole : two.parseEnds rules 3 o ab true (1024 : Nat) = .ok (.composite ab _) := rfl
  obtain ⟨t, guard⟩ := all.returns _ whole
  have run : two.runEnds rules 3 o abc (1024 : Nat) = .ok (.success _ (.cursor _ _) _) := rfl
  obtain ⟨n, r, place, -, ends, position, tokens, note⟩ := more.leftover _ _ _ _ run rfl
  cases place
  refine ⟨_, hg, fun tokens htokens => ⟨(keeps tokens htokens).runFromStart, guards tokens htokens⟩,
    ⟨_, whole⟩, ⟨_, guard⟩, ⟨r, ends, position, tokens, note⟩, more.reports.1 ⟨⟨_, run⟩, r, ends⟩⟩

end

end ParserAlgebra
