import ParserAlgebra.Proofs.Comes

/-!
# Proofs/Finds — a parser that finds a value in the tokens in front of it

    p finds v in ts, before rest        from ts ++ rest to rest, with enough fuel
    p misses ts                         no match from ts, with enough fuel

Where one knows what a parser is meant to read, its run is put together from pieces of the input:
each piece with the value that is found in it, whatever has been passed, and with the tokens that
come next (`Finds`).  Pieces add up, so a sequence finds its members' pieces in a row and a
repetition finds as many as there are until it misses.

What was found is the value itself, not just its components, and the cursor behind the piece is the
very cursor that the run goes on from.
-/

namespace ParserAlgebra

variable {P : Type}

variable [Primitive P] {rules : String → Option (Value P)}

/-! ## Pieces of a stream -/

/-- A cursor between what has been passed, nearest first, and what is left. -/
abbrev spot (o : Origin) (passed rest : List (Value P)) : Value P :=
  .cursor (.indexed o passed rest false) none

/-- **The body finds `v` in `ts`**, if `rest` comes next. -/
def Finds (rules : String → Option (Value P)) (b : Body P) (ts : List (Value P)) (v : Value P)
    (rest : List (Value P)) : Prop :=
  ∀ o passed, o.ordered = true →
    Comes (fun n => b.apply (call (quiet rules) n) n (spot o passed (ts ++ rest)))
      (.success v (spot o (ts.reverse ++ passed) rest) none)

/-- **The body does not match** what is left. -/
def Misses (rules : String → Option (Value P)) (b : Body P) (ts : List (Value P)) : Prop :=
  ∀ o passed, o.ordered = true →
    Comes (fun n => b.apply (call (quiet rules) n) n (spot o passed ts)) .failure

/-- **Parsers in a row find values in a row.** -/
inductive FindsRow (rules : String → Option (Value P)) :
    List (Parser P) → List (Value P) → List (Value P) → List (Value P) → Prop
  | nil {rest} : FindsRow rules [] [] [] rest
  | cons {p ps ts us v vs rest} (h : Finds rules p.body ts v (us ++ rest))
      (hs : FindsRow rules ps us vs rest) : FindsRow rules (p :: ps) (ts ++ us) (v :: vs) rest

/-- **A parser finds values over and over**, until it misses. -/
inductive FindsMany (rules : String → Option (Value P)) (p : Parser P) :
    List (Value P) → List (Value P) → List (Value P) → Prop
  | nil {rest} (h : Misses rules p.body rest) : FindsMany rules p [] [] rest
  | cons {ts us v vs rest} (h : Finds rules p.body ts v (us ++ rest))
      (hs : FindsMany rules p us vs rest) : FindsMany rules p (ts ++ us) (v :: vs) rest

section

variable {p : Parser P} {ts us rest : List (Value P)} {v w : Value P} {o : Origin}
  {passed : List (Value P)}

theorem Finds.comes (h : Finds rules p.body ts v rest) (ho : o.ordered = true) :
    Comes (fun n => call (quiet rules) n (.parser p) [spot o passed (ts ++ rest)])
      (.success v (spot o (ts.reverse ++ passed) rest) none) := comes_call (h o passed ho)

theorem Misses.comes (h : Misses rules p.body ts) (ho : o.ordered = true) :
    Comes (fun n => call (quiet rules) n (.parser p) [spot o passed ts]) .failure :=
  comes_call (h o passed ho)

/-- A parser matches at what it finds. -/
theorem Finds.matches (h : Finds rules p.body ts v rest) (ho : o.ordered = true) :
    Matches rules p (spot o passed (ts ++ rest)) v (spot o (ts.reverse ++ passed) rest) :=
  ⟨none, h.comes ho⟩

/-- A parser declines at what it misses. -/
theorem Misses.declines (h : Misses rules p.body ts) (ho : o.ordered = true) :
    Declines rules p (spot o passed ts) := ⟨.failure, rfl, h.comes ho⟩

/-! ## One token -/

theorem finds_one {t : Value P} : Finds rules .one [t] t rest := by
  intro o passed ho
  have current : (Cursor.indexed o passed (t :: rest) false).current = .ok t :=
    Cursor.current_eq_head ho rfl
  simp only [Body.apply, List.cons_append, List.nil_append]
  rw [Body.takeToken_of_current rfl current rfl]
  exact comes_pure _

theorem misses_one : Misses rules .one [] := fun _ _ _ => comes_pure _

/-! ## Options and alternatives -/

theorem finds_optional (h : Finds rules p.body ts v rest) :
    Finds rules (.optional p) ts (.present v none) rest :=
  fun _ _ ho => comes_optional (h.matches ho)

theorem finds_absent (h : Misses rules p.body rest) :
    Finds rules (.optional p) [] .absent rest :=
  fun _ _ ho => comes_absent (h.declines ho)

theorem finds_head {ps : List (Parser P)} (h : Finds rules p.body ts v rest) :
    Finds rules (.alternative (p :: ps)) ts v rest :=
  fun _ _ ho => (h.comes ho).bind (comes_pure _)

theorem finds_tail {ps : List (Parser P)} (h : Misses rules p.body (ts ++ rest))
    (hs : Finds rules (.alternative ps) ts v rest) :
    Finds rules (.alternative (p :: ps)) ts v rest :=
  fun o passed ho => (h.comes ho).bind (hs o passed ho)

theorem misses_nil : Misses rules (.alternative []) ts := fun _ _ _ => comes_pure _

theorem misses_cons {ps : List (Parser P)} (h : Misses rules p.body ts)
    (hs : Misses rules (.alternative ps) ts) : Misses rules (.alternative (p :: ps)) ts :=
  fun o passed ho => (h.comes ho).bind (hs o passed ho)

/-! ## Sequences -/

/-- Values found in a row are matched in a row. -/
theorem FindsRow.row {ps : List (Parser P)} {vs : List (Value P)}
    (h : FindsRow rules ps ts vs rest) (ho : o.ordered = true) :
    Row rules ps (spot o passed (ts ++ rest)) vs (spot o (ts.reverse ++ passed) rest) := by
  induction h generalizing passed with
  | nil => exact .nil
  | cons h _ ih =>
    rw [List.append_assoc, List.reverse_append, List.append_assoc]
    exact .cons (h.matches ho) ih

/-- **A sequence finds the components of all its members' values.** -/
theorem finds_sequence {ps : List (Parser P)} {vs : List (Value P)}
    (h : FindsRow rules ps ts vs rest) : Finds rules (.sequence ps) ts (Value.concat vs) rest :=
  fun _ _ ho => comes_sequence (h.row ho)

/-- **A sequence misses where one of its members does**, behind what those before it find. -/
theorem misses_row {q : Parser P} {ps qs : List (Parser P)} {vs : List (Value P)}
    (h : FindsRow rules ps ts vs rest) (k : Misses rules q.body rest) :
    Misses rules (.sequence (ps ++ q :: qs)) (ts ++ rest) :=
  fun _ _ ho => comes_sequence_failure (h.row ho) (k.declines ho)

theorem misses_sequence {ps : List (Parser P)} (h : Misses rules p.body ts) :
    Misses rules (.sequence (p :: ps)) ts := misses_row .nil h

/-- A sequence of two misses where its second parser does. -/
theorem misses_pair {q : Parser P} (h : Finds rules p.body ts v rest)
    (k : Misses rules q.body rest) : Misses rules (.sequence [p, q]) (ts ++ rest) :=
  fun _ _ ho => comes_pair_failure (h.matches ho) (k.declines ho)

/-! ## Repetitions -/

/-- Values found over and over are matched over and over, until there is no match. -/
theorem FindsMany.streak {vs : List (Value P)} (h : FindsMany rules p ts vs rest)
    (ho : o.ordered = true) : ∃ steps, Streak.values steps = vs ∧
      Streak (Matches rules p) (Declines rules p) (spot o passed (ts ++ rest)) steps
        (spot o (ts.reverse ++ passed) rest) := by
  induction h generalizing passed with
  | nil h => exact ⟨[], rfl, .nil (h.declines ho)⟩
  | cons h _ ih =>
    obtain ⟨steps, rfl, hs⟩ := ih
    rw [List.append_assoc, List.reverse_append, List.append_assoc]
    exact ⟨_, rfl, .cons (h.matches ho) hs⟩

theorem finds_repeat0 {f : Callable P} {vs : List (Value P)} {x : Value P}
    (h : FindsMany rules p ts vs rest) (hf : Returns rules f [.list vs none] (.ok x)) :
    Finds rules (.repeat0 p f) ts x rest := by
  intro o passed ho
  obtain ⟨steps, rfl, hs⟩ := h.streak ho
  exact comes_repeat0 hs hf

/-- A repetition that starts with a match. -/
theorem finds_repeat1 {f : Callable P} {vs : List (Value P)} {x : Value P}
    (h : Finds rules p.body ts v (us ++ rest)) (hs : FindsMany rules p us vs rest)
    (hf : Returns rules f [.list (v :: vs) none] (.ok x)) :
    Finds rules (.repeat1 p f) (ts ++ us) x rest := by
  intro o passed ho
  obtain ⟨steps, rfl, hs⟩ := hs.streak ho
  rw [List.append_assoc, List.reverse_append, List.append_assoc]
  exact comes_repeat1 (h.matches ho) hs hf

/-- A repetition that has to match once. -/
theorem misses_repeat1 {f : Callable P} (h : Misses rules p.body ts) :
    Misses rules (.repeat1 p f) ts :=
  fun _ _ ho => comes_repeat1_failure (h.declines ho)

/-! ## Mappers -/

theorem misses_map {m : Mapper P} (h : Misses rules p.body ts) : Misses rules (.map p m) ts :=
  fun _ _ ho => comes_map_failure (h.declines ho)

/-- A mapper that cannot refuse hands on what it makes of the components. -/
theorem finds_map {m : Mapper P} {x : Value P} (h : Finds rules p.body ts v rest)
    (hm : m.isFallible = false)
    (hx : Comes (fun n => m.apply (call (quiet rules) n) v.components) x) :
    Finds rules (.map p m) ts x.unwrap rest :=
  fun _ _ ho => comes_map (h.matches ho) hm hx

/-- A filter passes on what its predicate holds for. -/
theorem finds_filter {f : Callable P} {b : Value P} (h : Finds rules p.body ts v rest)
    (hf : Returns rules f v.components (.ok b)) (hb : b.isTruthy = true) :
    Finds rules (.map p (.filter f)) ts (Value.tupleOf v.components).unwrap rest :=
  fun _ _ ho => comes_filtered (h.matches ho) hf hb

theorem misses_filter {f : Callable P} {b : Value P} (h : Finds rules p.body ts v rest)
    (hf : Returns rules f v.components (.ok b)) (hb : b.isTruthy = false) :
    Misses rules (.map p (.filter f)) (ts ++ rest) :=
  fun _ _ ho => comes_filtered_failure (h.matches ho) hf hb

/-! ## Recursive rules -/

/-- Delegating takes some more fuel. -/
theorem Delegates.comes {f x y : Value P} {q : Parser P} (hf : Delegates rules f q)
    (h : Comes (fun n => call (quiet rules) n (.parser q) [x]) y) :
    Comes (fun n => f.invokeWith (call (quiet rules) n) [x]) y := by
  obtain ⟨k, hk⟩ := hf.invokeWith_eq x
  obtain ⟨m, hm⟩ := h
  refine ⟨m + k, fun n hn => ?_⟩
  obtain ⟨n, rfl⟩ : ∃ l, n = l + k := ⟨n - k, by omega⟩
  exact (congrArg Run.outcome (hk n)).trans (hm n (by omega))

theorem finds_raw {f : Value P} {q : Parser P} (hf : Delegates rules f q)
    (h : Finds rules q.body ts v rest) : Finds rules (.raw f) ts v rest :=
  fun _ _ ho => hf.comes (h.comes ho)

theorem misses_raw {f : Value P} {q : Parser P} (hf : Delegates rules f q)
    (h : Misses rules q.body ts) : Misses rules (.raw f) ts :=
  fun _ _ ho => hf.comes (h.comes ho)

/-! ## Whole parses -/

/-- **A parse returns what is found in all of the tokens**, and without looking at what comes next
also if it is found in front of more. -/
theorem Finds.parse (h : Finds rules p.body ts v rest) (ho : o.ordered = true) (full : Bool)
    (hr : full = true → rest = []) :
    Comes (fun n => p.parse (quiet rules) n o (ts ++ rest) full) v := by
  refine (comes_own _).bind ((h.comes ho).bind ((comes_pure (spot o _ rest)).bind ?_))
  cases full with
  | false => exact comes_pure v
  | true =>
    rw [hr rfl]
    exact comes_pure v

end

end ParserAlgebra
