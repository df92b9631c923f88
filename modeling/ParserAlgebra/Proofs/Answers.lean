import ParserAlgebra.Proofs.Comes.General
import ParserAlgebra.Proofs.Onward

/-!
# Proofs/Answers — parsers that answer wherever they start on a stream

    the stream of c      at each cursor d:  a match, going on at e on the same stream,
                                            or no match

A parser that raises nothing on a stream either matches or declines at each of its cursors, and goes
on on that stream (`Answers`).  If each match leaves fewer tokens than there were (`Advances`), the
matches from a cursor come to an end: there is a streak of them, and it is no longer than what was
left (`exists_streak_along`).

The same holds of a parser behind another one, where a step is a match of both (`Pair`) and the two
together have to leave fewer tokens.
-/

namespace ParserAlgebra

variable {P α : Type}

/-! ## On one stream -/

/-- **On the stream of `c`**: the same tokens, held in the same way, and nothing keeps the cursor
from reading what is left of them. -/
structure Cursor.Along {V : Type} (c d : Cursor V) : Prop where
  readable : d.Readable
  origin : d.origin = c.origin
  tokens : d.tokens = c.tokens
  checked : d.isChecked = c.isChecked

theorem Cursor.Readable.along {V : Type} {c : Cursor V} (h : c.Readable) : c.Along c :=
  ⟨h, rfl, rfl, rfl⟩

/-- A step forward stays on the stream. -/
theorem Cursor.Along.advance {V : Type} {c d : Cursor V} (h : c.Along d) {x : V} {xs : List V}
    (hd : d.remaining = x :: xs) :
    ∃ e, d.advance = .ok e ∧ c.Along e ∧ e.remaining = xs := by
  obtain ⟨e, he, hxs, hread, _⟩ := advance_eq_tail h.readable hd
  obtain ⟨htokens, horigin⟩ := tokens_advance he
  obtain ⟨_, hplace⟩ := h.readable.exists_place
  have along : c.Along e := {
    readable := hread
    origin := horigin.trans h.origin
    tokens := htokens.trans h.tokens
    checked := (isChecked_advance he hplace).trans h.checked }
  exact ⟨e, he, along, hxs⟩

/-- **Each cursor on the stream is settled**: there is a step from it to a cursor on the stream,
with one of the values, or there is a stop. -/
def Settled (c : Cursor (Value P)) (step : Value P → α → Value P → Prop) (stop : Value P → Prop)
    (values : Set α) : Prop :=
  ∀ d i, c.Along d → stop (.cursor d i) ∨
    ∃ v ∈ values, ∃ e j, c.Along e ∧ step (.cursor d i) v (.cursor e j)

/-- **Each step on the stream leaves fewer tokens** than there were. -/
def Advances (c : Cursor (Value P)) (step : Value P → α → Value P → Prop) : Prop :=
  ∀ d i v e j, c.Along d → c.Along e → step (.cursor d i) v (.cursor e j) →
    e.remaining.length < d.remaining.length

/-- How much is left in front of a cursor. -/
def Value.ahead : Value P → Nat
  | .cursor c _ => c.remaining.length
  | _ => 0

section

variable {c d : Cursor (Value P)} {step : Value P → α → Value P → Prop} {stop : Value P → Prop}
  {values : Set α}

/-- **From each cursor there is a streak**, and it has no more steps than there are tokens left. -/
theorem exists_streak_along (h : Settled c step stop values) (ha : Advances c step)
    (hd : c.Along d) (i : Identity) :
    ∃ run e j, c.Along e ∧ Streak step stop (.cursor d i) run (.cursor e j) ∧
      (∀ v ∈ Streak.values run, v ∈ values) ∧ run.length ≤ d.remaining.length := by
  let inside : Set (Value P) := fun x => ∃ d i, x = .cursor d i ∧ c.Along d
  -- the steps that are streaked remember that their values are among the given ones
  let among : Value P → α → Value P → Prop := fun x v y => step x v y ∧ v ∈ values
  have smaller : ∀ x ∈ inside, stop x ∨ ∃ v, ∃ y ∈ inside, among x v y ∧ y.ahead < x.ahead := by
    rintro _ ⟨d, i, rfl, hd⟩
    obtain hstop | ⟨v, hv, e, j, he, hstep⟩ := h d i hd
    · exact .inl hstop
    · exact .inr ⟨v, _, ⟨e, j, rfl, he⟩, ⟨hstep, hv⟩, ha d i v e j hd he hstep⟩
  obtain ⟨run, _, ⟨e, j, rfl, he⟩, hs, hle⟩ := exists_streak Value.ahead smaller ⟨d, i, rfl, hd⟩
  refine ⟨run, e, j, he, ?_, hs.forall_values fun _ _ _ hstep => hstep.2, ?_⟩
  · exact hs.mono (fun _ _ _ hstep => hstep.1) fun _ hstop => hstop
  · exact Nat.le_trans (Nat.le_add_right _ _) hle

/-- Steps advance if they are determined by where they start, and wherever there is one it
advances. -/
theorem advances_of_unique (hstep : ∀ c v d w e, step c v d → step c w e → w = v ∧ e = d)
    (hstop : ∀ c v d, step c v d → ¬stop c)
    (h : ∀ d i, c.Along d → stop (.cursor d i) ∨ ∃ v e j, step (.cursor d i) v (.cursor e j) ∧
      e.remaining.length < d.remaining.length) : Advances c step := by
  intro d i v e j hd _ hv
  obtain hd | ⟨w, e', j', hw, hlt⟩ := h d i hd
  · exact absurd hd (hstop _ _ _ hv)
  · obtain ⟨_, he⟩ := hstep _ _ _ _ _ hv hw
    cases he
    exact hlt

end

variable [Primitive P] {rules : String → Option (Value P)}

/-- **The parser answers on the stream**: wherever it starts, it matches with one of the values and
goes on on the stream, or it declines. -/
abbrev Answers (rules : String → Option (Value P)) (c : Cursor (Value P)) (p : Parser P)
    (values : Set (Value P)) : Prop :=
  Settled c (Matches rules p) (Declines rules p) values

/-- **The parser answers and each match moves on.** -/
structure Progresses (rules : String → Option (Value P)) (c : Cursor (Value P)) (p : Parser P)
    (values : Set (Value P)) : Prop where
  answers : Answers rules c p values
  advances : Advances c (Matches rules p)

section

variable {p : Parser P} {c : Cursor (Value P)} {vs ws : Set (Value P)}

/-- A parser progresses if at each cursor it does. -/
theorem progresses_of_steps (h : ∀ d i, c.Along d → Declines rules p (.cursor d i) ∨
    ∃ v ∈ vs, ∃ e j, c.Along e ∧ Matches rules p (.cursor d i) v (.cursor e j) ∧
      e.remaining.length < d.remaining.length) : Progresses rules c p vs where
  answers d i hd := (h d i hd).imp_right fun ⟨v, hv, e, j, he, hm, _⟩ => ⟨v, hv, e, j, he, hm⟩
  advances := advances_of_unique (fun _ _ _ _ _ => Matches.unique)
    (fun _ _ _ => Matches.not_declines)
    fun d i hd => (h d i hd).imp_right fun ⟨v, _, e, j, _, hm, hlt⟩ => ⟨v, e, j, hm, hlt⟩

/-- **A single token progresses** through the tokens of the stream. -/
theorem progresses_one : Progresses rules c .one {t | t ∈ c.tokens} := by
  refine progresses_of_steps fun d i hd => ?_
  have ends := Cursor.atEnd_eq_isEmpty hd.readable
  cases hrest : d.remaining with
  | nil => exact .inl (declines_one (by rw [ends, hrest]; rfl) i)
  | cons t ts =>
    have current : d.current = .ok t := Cursor.current_eq_head hd.readable hrest
    obtain ⟨e, he, halong, hts⟩ := hd.advance hrest
    have inside : d.atEnd = false := by rw [ends, hrest]; rfl
    have ht : t ∈ c.tokens := hd.tokens ▸ Cursor.mem_tokens_of_current current
    exact .inr ⟨t, ht, e, none, halong, matches_one inside current he i, by simp [hts]⟩

/-- A parser under a predicate that answers progresses as it does without, through what the
predicate holds for. -/
theorem Progresses.filtered {q : Parser P} {f : Callable P} (h : Progresses rules c p vs)
    (hq : q.body = .map p (.filter f))
    (hv : ∀ v ∈ vs, v.isComposite = false ∧
      ∃ b, Returns rules f [v] (.ok b) ∧ (b.isTruthy = true → v ∈ ws)) :
    Progresses rules c q ws := by
  refine progresses_of_steps fun d i hd => ?_
  obtain hno | ⟨v, hmem, e, j, he, hmatch⟩ := h.answers d i hd
  · exact .inl (hno.filtered hq)
  obtain ⟨hflat, b, hb, hmem⟩ := hv v hmem
  cases htruth : b.isTruthy with
  | false => exact .inl (hmatch.filtered_declines hq hflat hb htruth)
  | true =>
    exact .inr ⟨v, hmem htruth, e, j, he, hmatch.filtered hq hflat hb htruth,
      h.advances d i v e j hd he hmatch⟩

/-- A parser under a mapper that cannot refuse progresses as it does without. -/
theorem Progresses.mapped {m : Mapper P} (h : Progresses rules c p vs) (hm : m.isFallible = false)
    (hv : ∀ v ∈ vs, ∃ x, Comes (fun n => m.apply (call (quiet rules) n) v.components) x ∧
      x.unwrap ∈ ws) : Progresses rules c (p.mapped m) ws := by
  refine progresses_of_steps fun d i hd => ?_
  obtain hno | ⟨v, hmem, e, j, he, hmatch⟩ := h.answers d i hd
  · exact .inl (declines_of_body (comes_map_failure hno))
  · obtain ⟨x, hx, hmem⟩ := hv v hmem
    exact .inr ⟨x.unwrap, hmem, e, j, he, matches_of_body (comes_map hmatch hm hx),
      h.advances d i v e j hd he hmatch⟩

end

/-! ## One parser behind another -/

/-- **Both parsers match**, the second from where the first stopped. -/
def Pair (rules : String → Option (Value P)) (p q : Parser P) (c : Value P)
    (v : Value P × Value P) (e : Value P) : Prop :=
  ∃ d, Matches rules p c v.1 d ∧ Matches rules q d v.2 e

/-- **One of the two declines**: the first, or the second behind the first. -/
def NoPair (rules : String → Option (Value P)) (p q : Parser P) (c : Value P) : Prop :=
  Declines rules p c ∨ ∃ v d, Matches rules p c v d ∧ Declines rules q d

section

variable {p q : Parser P} {x y z : Value P} {v w : Value P × Value P} {c : Cursor (Value P)}
  {vs ws : Set (Value P)}

theorem Pair.unique (h : Pair rules p q x v y) (k : Pair rules p q x w z) : w = v ∧ z = y := by
  obtain ⟨d, hp, hq⟩ := h
  obtain ⟨e, kp, kq⟩ := k
  obtain ⟨hfst, rfl⟩ := hp.unique kp
  obtain ⟨hsnd, rfl⟩ := hq.unique kq
  exact ⟨Prod.ext hfst hsnd, rfl⟩

theorem Pair.not_noPair (h : Pair rules p q x v y) : ¬NoPair rules p q x := by
  obtain ⟨d, hp, hq⟩ := h
  rintro (k | ⟨w, e, kp, kq⟩)
  · exact hp.not_declines k
  · obtain ⟨_, rfl⟩ := hp.unique kp
    exact hq.not_declines kq

/-- A pair is a match of the sequence. -/
theorem Pair.joined (h : Pair rules p q x v y) :
    Matches rules (Parser.sequenced [p, q]) x (Value.concat [v.1, v.2]) y := by
  obtain ⟨d, hp, hq⟩ := h
  exact hp.pair hq

theorem NoPair.joined (h : NoPair rules p q x) : Declines rules (Parser.sequenced [p, q]) x := by
  obtain h | ⟨v, d, hp, hq⟩ := h
  · exact h.pair
  · exact hp.pair_declines hq

/-- If both parsers answer on a stream, it is settled where there are pairs. -/
theorem Answers.pair (hp : Answers rules c p vs) (hq : Answers rules c q ws) :
    Settled c (Pair rules p q) (NoPair rules p q) {v | v.1 ∈ vs ∧ v.2 ∈ ws} := by
  intro d i hd
  obtain h | ⟨v, hv, e, j, he, h⟩ := hp d i hd
  · exact .inl (.inl h)
  obtain k | ⟨w, hw, e', j', he', k⟩ := hq e j he
  · exact .inl (.inr ⟨v, _, h, k⟩)
  · exact .inr ⟨(v, w), ⟨hv, hw⟩, e', j', he', _, h, k⟩

/-- Two parsers that progress advance one behind the other. -/
theorem Progresses.pair (hp : Progresses rules c p vs) (hq : Progresses rules c q ws) :
    Advances c (Pair rules p q) := by
  rintro d i v e j hd he ⟨_, h, k⟩
  obtain hno | ⟨w, _, d', j', hd', h'⟩ := hp.answers d i hd
  · exact absurd hno h.not_declines
  obtain ⟨_, rfl⟩ := h'.unique h
  exact Nat.lt_trans (hq.advances d' j' _ e j hd' he k) (hp.advances d i _ d' j' hd hd' h)

/-- They progress in a sequence. -/
theorem Progresses.joined (hp : Progresses rules c p vs) (hq : Progresses rules c q ws) :
    Progresses rules c (Parser.sequenced [p, q])
      {x | ∃ v ∈ vs, ∃ w ∈ ws, x = Value.concat [v, w]} := by
  refine progresses_of_steps fun d i hd => ?_
  obtain hno | ⟨v, ⟨hfst, hsnd⟩, e, j, he, hpair⟩ := hp.answers.pair hq.answers d i hd
  · exact .inl hno.joined
  · exact .inr ⟨_, ⟨v.1, hfst, v.2, hsnd, rfl⟩, e, j, he, hpair.joined,
      hp.pair hq d i v e j hd he hpair⟩

/-- A streak of matches is determined by where it starts. -/
theorem Streak.unique_matches {run run' : List (Value P × Value P)}
    (h : Streak (Matches rules p) (Declines rules p) x run y)
    (k : Streak (Matches rules p) (Declines rules p) x run' z) : run' = run ∧ z = y :=
  h.unique k (fun _ _ _ _ _ => Matches.unique) fun _ _ _ => Matches.not_declines

/-- So is a streak of pairs. -/
theorem Streak.unique_pairs {run run' : List ((Value P × Value P) × Value P)}
    (h : Streak (Pair rules p q) (NoPair rules p q) x run y)
    (k : Streak (Pair rules p q) (NoPair rules p q) x run' z) : run' = run ∧ z = y :=
  h.unique k (fun _ _ _ _ _ => Pair.unique) fun _ _ _ => Pair.not_noPair

/-- A streak of pairs is one of matches of the sequence. -/
theorem Streak.joined {run : List ((Value P × Value P) × Value P)}
    (h : Streak (Pair rules p q) (NoPair rules p q) x run y) :
    Streak (Matches rules (Parser.sequenced [p, q])) (Declines rules (Parser.sequenced [p, q])) x
      (run.map (Prod.map (fun v => Value.concat [v.1, v.2]) id)) y :=
  h.map _ (fun _ _ _ => Pair.joined) fun _ => NoPair.joined

end

end ParserAlgebra
