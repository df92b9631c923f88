import ParserAlgebra.Catalogue.Readers
import ParserAlgebra.Proofs.Composed
import ParserAlgebra.Proofs.Remaining.SideBySide

/-!
# Proofs/Remaining — parsers see the tokens that are left, and nothing else

    the same tokens ahead of c and d   ⟹   p at c  ∥  p at d

A parser that is composed of recursive rules alone cannot tell two cursors apart that have the same
tokens ahead: not by how they are held, nor by what they have passed, nor by where they stand.  Its
runs from both end alike, with cursors that have come equally far and have the same tokens ahead
again.  So a stream may be cut off in front of the place where a parser starts: all that changes is
where the places are counted from.

Only the cursor differs between the two runs.  Mappers and collections are called with the same
values on both sides, so that nothing has to be known of them.
-/

namespace ParserAlgebra

variable {σ P α β γ : Type}

open Run Value

/-! ## Going on after results that agree -/

section

variable {c d : Cursor (Value P)}

/-- What was read of results that agree: nothing on both sides, or the same next to cursors that
have come equally far. -/
inductive Value.AgreeWith (c d : Cursor (Value P)) :
    Option (α × Value P) → Option (α × Value P) → Prop
  | none : AgreeWith c d none none
  | some {a n m} (h : Reached c d n m) : AgreeWith c d (some (a, n)) (some (a, m))

theorem beside_readMatch {x y : Value P} (h : Agree c d x y) :
    Beside (AgreeWith c d) (x.readMatch : Run σ P _) y.readMatch := by
  cases h with
  | failure => exact beside_pure .none
  | success h => exact beside_pure (.some h)

/-- What comes after a result goes on beside each other, if it does so after a failure and after a
match. -/
theorem Beside.readMatch {R : β → γ → Prop} {r t : Run σ P (Value P)}
    {f : Option (Value P × Value P) → Run σ P β} {g : Option (Value P × Value P) → Run σ P γ}
    (h : Beside (Agree c d) r t) (hnone : Beside R (f none) (g none))
    (hsome : ∀ v c' d' i j, Reached c d (.cursor c' i) (.cursor d' j) → c'.SameAhead d' →
      i.isSome = j.isSome → Beside R (f (some (v, .cursor c' i))) (g (some (v, .cursor d' j)))) :
    Beside R (r >>= fun x => x.readMatch >>= f) (t >>= fun y => y.readMatch >>= g) := by
  refine h.bind fun x y hxy => (beside_readMatch hxy).bind fun a b hab => ?_
  cases hab with
  | none => exact hnone
  | some h =>
    obtain ⟨hc, hd, hs, hij⟩ := h
    exact hsome _ _ _ _ _ (.mk hc hd hs hij) hs hij

end

/-! ## Tokens -/

section

variable {c d : Cursor (Value P)} {i j : Identity}

theorem Cursor.SameAhead.atEnd_eq (h : c.SameAhead d) : c.atEnd = d.atEnd := by
  rw [Cursor.atEnd_eq_isEmpty h.left, Cursor.atEnd_eq_isEmpty h.right, h.remaining]

/-- A step forward leaves the same tokens ahead. -/
theorem Cursor.SameAhead.advance (h : c.SameAhead d) {x : Value P} {xs : List (Value P)}
    (hx : c.remaining = x :: xs) : ∃ c' d', c.advance = .ok c' ∧ d.advance = .ok d' ∧
      ∀ i j, i.isSome = j.isSome → Reached c d (.cursor c' i) (.cursor d' j) := by
  obtain ⟨c', hc, hxs, hr, _⟩ := Cursor.advance_eq_tail h.left hx
  obtain ⟨d', hd, hxs', hr', _⟩ := Cursor.advance_eq_tail h.right (h.remaining ▸ hx)
  exact ⟨c', d', hc, hd, fun i j => .mk (Cursor.onward_advance hc h.left.exists_place)
    (Cursor.onward_advance hd h.right.exists_place) ⟨hr, hr', hxs.trans hxs'.symm⟩⟩

/-- The same token is taken. -/
theorem beside_takeToken (h : c.SameAhead d) : Beside (Agree c d)
    (ofExcept (Body.takeToken (.cursor c i)) : Run σ P _)
    (ofExcept (Body.takeToken (.cursor d j))) := by
  have hc := Cursor.atEnd_eq_isEmpty h.left
  have hd := h.atEnd_eq.symm.trans hc
  cases hx : c.remaining with
  | nil =>
    rw [hx] at hc hd
    rw [Body.takeToken_of_atEnd hc, Body.takeToken_of_atEnd hd]
    exact beside_pure .failure
  | cons x xs =>
    obtain ⟨c', d', hca, hda, hreached⟩ := h.advance hx
    have hcx := Cursor.current_eq_head h.left hx
    have hdx := Cursor.current_eq_head h.right (h.remaining ▸ hx)
    rw [hx] at hc hd
    rw [Body.takeToken_of_current hc hcx hca, Body.takeToken_of_current hd hdx hda]
    exact beside_pure (.success (hreached none none rfl))

/-- The end is the same. -/
theorem beside_takeEnd (h : c.SameAhead d) (hij : i.isSome = j.isSome) : Beside (Agree c d)
    (ofExcept (Body.takeEnd (.cursor c i)) : Run σ P _)
    (ofExcept (Body.takeEnd (.cursor d j))) := by
  rw [Body.takeEnd_cursor, Body.takeEnd_cursor, h.atEnd_eq]
  split
  · exact beside_pure (.success (reached_self h hij))
  · exact beside_pure .failure

end

/-! ## Parsers made of parsers -/

/-- **The parser sees what is ahead** and no more, whatever runs it. -/
def SeesAhead (run : Parser P → Value P → Run σ P (Value P)) (p : Parser P) : Prop :=
  ∀ c d i j, c.SameAhead d → i.isSome = j.isSome →
    Beside (Agree c d) (run p (.cursor c i)) (run p (.cursor d j))

section

variable {run : Parser P → Value P → Run σ P (Value P)} {c d : Cursor (Value P)} {i j : Identity}
  (hs : c.SameAhead d) (hij : i.isSome = j.isSome)

include hs hij

theorem beside_runAll {ps : List (Parser P)} (h : ∀ p ∈ ps, SeesAhead run p) :
    Beside (AgreeWith c d) (Body.runAll run ps (.cursor c i))
      (Body.runAll run ps (.cursor d j)) := by
  induction ps generalizing c d i j with
  | nil => exact beside_pure (.some (reached_self hs hij))
  | cons p ps ih =>
    obtain ⟨hp, hps⟩ := List.forall_mem_cons.1 h
    unfold Body.runAll
    refine Beside.readMatch (hp c d i j hs hij) (beside_pure .none) ?_
    intro v c' d' i' j' hr hs' hij'
    refine (ih hs' hij' hps).bind fun m m' hm => ?_
    cases hm with
    | none => exact beside_pure .none
    | some h => exact beside_pure (.some (hr.trans h))

theorem beside_runFirst {ps : List (Parser P)} (h : ∀ p ∈ ps, SeesAhead run p) :
    Beside (Agree c d) (Body.runFirst run ps (.cursor c i))
      (Body.runFirst run ps (.cursor d j)) := by
  induction ps with
  | nil => exact beside_pure .failure
  | cons p ps ih =>
    obtain ⟨hp, hps⟩ := List.forall_mem_cons.1 h
    unfold Body.runFirst
    refine (hp c d i j hs hij).bind fun x y hxy => ?_
    rw [← hxy.isTruthy_eq]
    split
    · exact beside_pure hxy
    · exact ih hps

/-- The rounds of a repetition come to the same values. -/
theorem beside_runMany {p : Parser P} (h : SeesAhead run p) (rounds : Nat) :
    Beside (fun x y => x.1 = y.1 ∧ Reached c d x.2 y.2) (Body.runMany run p rounds (.cursor c i))
      (Body.runMany run p rounds (.cursor d j)) := by
  induction rounds generalizing c d i j with
  | zero => exact beside_exhaust
  | succ rounds ih =>
    unfold Body.runMany
    refine Beside.readMatch (h c d i j hs hij) (beside_pure ⟨rfl, reached_self hs hij⟩) ?_
    intro v c' d' i' j' hr hs' hij'
    refine (ih hs' hij').bind fun x y hxy => beside_pure ?_
    exact ⟨congrArg (v :: ·) hxy.1, hr.trans hxy.2⟩

end

/-! ## Bodies

All that a body calls besides its parts is called with the same values on both sides. -/

section

variable [Supply σ] {invoke : Invoke σ P} {c d : Cursor (Value P)} {i j : Identity}

theorem beside_own {r t : Run σ P (Value P)} (h : Beside (Agree c d) r t) :
    Beside (Agree c d) (r >>= own) (t >>= own) := by
  refine h.bind fun x y hxy s => ?_
  obtain ⟨hn, hs⟩ := hxy.numbered s
  exact ⟨.returns hn, hs⟩

/-- Taking hold of two cursors gives both a number, or neither. -/
theorem beside_ownAll (hij : i.isSome = j.isSome) :
    Beside (fun xs ys => ∃ i' j', xs = [.cursor c i'] ∧ ys = [.cursor d j'] ∧ i'.isSome = j'.isSome)
      (ownAll [.cursor c i] : Run σ P _) (ownAll [.cursor d j]) := by
  intro s
  simp only [ownAll, numberedAll, numbered_cursor]
  cases i with
  | some i =>
    cases j with
    | some j => exact ⟨.returns ⟨_, _, rfl, rfl, rfl⟩, rfl⟩
    | none => contradiction
  | none =>
    cases j with
    | some j => contradiction
    | none => exact ⟨.returns ⟨_, _, rfl, rfl, rfl⟩, rfl⟩

omit [Supply σ] in
theorem beside_runMapper {n m : Value P} (h : Reached c d n m) (mapper : Mapper P) (v : Value P)
    (k : Identity) : Beside (Agree c d) (Body.runMapper invoke mapper (.success v n k))
      (Body.runMapper invoke mapper (.success v m k)) := by
  have go {x : Value P} : Beside (Agree c d)
      (ofExcept (Value.success v n k).nextField >>= fun n => pure (.success x n none) : Run σ P _)
      (ofExcept (Value.success v m k).nextField >>= fun m => pure (.success x m none)) :=
    beside_pure (.success h)
  refine beside_bind (ofExcept (.ok v)) fun v => beside_bind _ fun w => ?_
  split
  · split
    · exact go
    · exact beside_pure .failure
    · exact beside_pure .failure
    · exact beside_bind (ofExcept w.shown) fun w s => ⟨.halts _, rfl⟩
  · exact go

/-- **A body sees what is ahead**, if its parts do and it is no function of the cursor. -/
theorem beside_body {b : Body P} (hb : ∀ f, b ≠ .raw f)
    (h : ∀ p ∈ b.parts, SeesAhead (fun p c => invoke (.parser p) [c]) p) (rounds : Nat)
    (hs : c.SameAhead d) (hij : i.isSome = j.isSome) :
    Beside (Agree c d) (b.apply invoke rounds (.cursor c i))
      (b.apply invoke rounds (.cursor d j)) := by
  have here {v : Value P} : Agree c d (.success v (.cursor c i) none)
      (.success v (.cursor d j) none) := .success (reached_self hs hij)
  have collected {f : Callable P} {vs : List (Value P)} {n m : Value P} (hnm : Reached c d n m) :
      Beside (Agree c d)
        (own (.list vs none) >>= fun xs => invoke f [xs] >>= fun x => pure (.success x n none))
        (own (.list vs none) >>= fun xs => invoke f [xs] >>= fun x => pure (.success x m none)) :=
    beside_bind _ fun _ => beside_bind _ fun _ => beside_pure (.success hnm)
  cases b with
  | succeed => exact beside_pure here
  | fail => exact beside_pure .failure
  | one => exact beside_takeToken hs
  | endOfInput => exact beside_takeEnd hs hij
  | optional p =>
    refine Beside.readMatch (h p (by simp [Body.parts]) c d i j hs hij) (beside_pure here) ?_
    intro v c' d' i' j' hr _ _
    exact beside_pure (.success hr)
  | sequence ps =>
    refine (beside_runAll hs hij h).bind fun m m' hm => ?_
    cases hm with
    | none => exact beside_pure .failure
    | some hr => exact beside_pure (.success hr)
  | alternative ps => exact beside_runFirst hs hij h
  | repeat0 p f =>
    refine (beside_runMany hs hij (h p (by simp [Body.parts])) rounds).bind ?_
    rintro ⟨vs, n⟩ ⟨vs', m⟩ ⟨rfl, hr⟩
    exact collected hr
  | repeat1 p f =>
    have hp := h p (by simp [Body.parts])
    refine Beside.readMatch (hp c d i j hs hij) (beside_pure .failure) ?_
    intro v c' d' i' j' hr hs' hij'
    refine (beside_runMany hs' hij' hp rounds).bind ?_
    rintro ⟨vs, n⟩ ⟨vs', m⟩ ⟨rfl, hr'⟩
    exact collected (hr.trans hr')
  | map p m =>
    refine (h p (by simp [Body.parts]) c d i j hs hij).bind fun x y hxy => ?_
    cases hxy with
    | failure => exact beside_pure .failure
    | success hr => exact beside_runMapper hr m _ _
  | raw f => exact absurd rfl (hb f)

omit [Supply σ] in
/-- The entries of the log show cursors and values, and all of these have a written form on both
sides or on neither. -/
theorem beside_logged (handler : Handler) (p : Parser P) {r t : Run σ P (Value P)}
    (h : Beside (Agree c d) r t) :
    Beside (Agree c d) (p.logged handler (.cursor c i) r) (p.logged handler (.cursor d j) t) := by
  have recorded {e e' : LogEntry P} (he : e.isWritable = e'.isWritable) :
      Beside (fun _ _ => True) (record handler e : Run σ P Unit) (record handler e') := by
    unfold record
    rw [he]
    split
    · exact fun s => ⟨.returns trivial, rfl⟩
    · cases handler with
      | lenient => exact fun s => ⟨.returns trivial, rfl⟩
      | strict => exact fun s => ⟨.halts _, rfl⟩
  have front : Beside (fun _ _ => True)
      (record handler (.trying p.name (.cursor c i)) : Run σ P Unit)
      (record handler (.trying p.name (.cursor d j))) := recorded rfl
  refine front.bind fun _ _ _ => h.bind fun x y hxy => ?_
  cases hxy with
  | failure => exact (recorded rfl).bind fun _ _ _ => beside_pure .failure
  | @success v n m k hr =>
    refine beside_bind (ofExcept (.ok v)) fun w => ?_
    exact (recorded rfl).bind fun _ _ _ => beside_pure (.success hr)

end

/-! ## From a position, and from the start of what is left there -/

/-- **Results shifted by `k`**: two failures, or matches of the same value with cursors on a stream
and on what is left of it after `k` tokens, `k` places apart. -/
inductive Value.Shifted (tokens : List (Value P)) (k : Nat) : Value P → Value P → Prop
  | failure : Shifted tokens k .failure .failure
  | success {v l} {c d : Cursor (Value P)} {i j} {n : Nat} (hc : c.tokens = tokens)
      (hcn : c.place = .int (k + n)) (hd : d.tokens = tokens.drop k) (hdn : d.place = .int n)
      (h : c.SameAhead d) :
    Shifted tokens k (.success v (.cursor c i) l) (.success v (.cursor d j) l)

section

variable {c : Cursor (Value P)} {o o' : Origin} {tokens : List (Value P)} {k : Nat}
  (h : Cursor.at? o tokens (.int k) = .ok c)

include h

theorem Cursor.place_of_at? : c.place = .int k := by
  have hs := (place_at? h).2.2
  unfold at? at h
  split at h
  · cases h
    rw [place, Number.same_int, beq_iff_eq] at hs
    rw [place, hs]
  · contradiction

/-- The cursor at a position has the tokens from there on ahead. -/
theorem Cursor.sameAhead_start (ho : o.ordered = true) (ho' : o'.ordered = true) :
    c.SameAhead (.start o' (tokens.drop k)) := by
  unfold Cursor.at? at h
  split at h
  · cases h
    exact ⟨ho, ho', rfl⟩
  · contradiction

theorem Value.Agree.shifted {x y : Value P}
    (hxy : Agree c (.start o' (tokens.drop k)) x y) : Shifted tokens k x y := by
  cases hxy with
  | failure => exact .failure
  | success hnm =>
    obtain ⟨hc, hd, hs, _⟩ := hnm
    obtain ⟨m, hm, hcm⟩ := hc.place
    obtain ⟨m', hm', hdm⟩ := hd.place
    obtain rfl : m = k := Number.int.inj (hm.symm.trans (Cursor.place_of_at? h))
    obtain rfl : 0 = m' := Number.int.inj hm'
    rw [Int.zero_add] at hdm
    exact .success (hc.tokens.trans (Cursor.place_at? h).1) hcm hd.tokens hdm hs

end

/-! ## Calls -/

section

variable [Supply σ] [Primitive P] {ctx : Context P} {c d : Cursor (Value P)} {i j : Identity}

/-- A function that only delegates sees what the parser sees, with at most one call in between. -/
theorem beside_delegates {f : Value P} {q : Parser P} (hf : Delegates ctx.rules f q) (fuel : Nat)
    (h : ∀ n ≤ fuel, SeesAhead (fun p c => (call ctx n (.parser p) [c] : Run σ P _)) q)
    (hs : c.SameAhead d) (hij : i.isSome = j.isSome) :
    Beside (Agree c d) (f.invokeWith (call ctx fuel : Invoke σ P) [.cursor c i])
      (f.invokeWith (call ctx fuel) [.cursor d j]) := by
  cases hf with
  | parser => exact h fuel (Nat.le_refl fuel) c d i j hs hij
  | @rule name q _ _ hrule =>
    match fuel with
    | 0 => exact beside_exhaust
    | fuel + 1 =>
      simp only [invokeWith, call, Action.apply, hrule]
      exact beside_own (h fuel (Nat.le_succ fuel) c d i j hs hij)
  | host hcall =>
    match fuel with
    | 0 => exact beside_exhaust
    | fuel + 1 =>
      simp only [invokeWith, call, Action.apply, hcall, Conduct.follow, bind_pure]
      refine beside_own ((beside_ownAll hij).bind ?_)
      rintro _ _ ⟨i', j', rfl, rfl, hij'⟩
      exact h fuel (Nat.le_succ fuel) c d i' j' hs hij'

/-- **A composed parser sees what is ahead**, with any fuel. -/
theorem seesAhead_call {leaves : Set (Parser P)}
    (hl : ∀ p ∈ leaves, Delegating ctx.rules leaves p) (fuel : Nat) {p : Parser P}
    (hp : Composed leaves p) :
    SeesAhead (fun p c => (call ctx fuel (.parser p) [c] : Run σ P _)) p := by
  induction fuel using Nat.strongRecOn generalizing p with
  | _ fuel ih =>
    intro c d i j hs hij
    match fuel with
    | 0 => exact beside_exhaust
    | fuel + 1 =>
      have body : Beside (Agree c d) (p.body.apply (call ctx fuel : Invoke σ P) fuel (.cursor c i))
          (p.body.apply (call ctx fuel) fuel (.cursor d j)) := by
        obtain ⟨leaf, hleaf, hb⟩ | ⟨hb, hparts⟩ := hp.opened.1
        · obtain ⟨f, q, hraw, hq, hf⟩ := hl leaf hleaf
          rw [hb, hraw]
          exact beside_delegates hf fuel (fun n hn => ih n (Nat.lt_succ_of_le hn) hq) hs hij
        · exact beside_body hb (fun q hq => ih fuel (Nat.lt_succ_self fuel) (hparts q hq)) fuel hs
            hij
      refine beside_own ?_
      unfold Parser.apply
      split
      · exact beside_logged ctx.handler p body
      · exact body

/-- **Parsers see the tokens that are left, and nothing else.**  From two cursors with the same
tokens ahead a composed parser runs alike: it fails from both, raises the same, needs more fuel from
both, or matches with the same value and cursors that have the same tokens ahead.  So parsing from
position `k` of a stream is parsing what is left there from its start, shifted by `k`. -/
theorem runs_alike_ahead (ctx : Context P) {leaves : Set (Parser P)}
    (hl : ∀ p ∈ leaves, Delegating ctx.rules leaves p) {p : Parser P} (hp : Composed leaves p)
    (fuel : Nat) :
    (∀ c d i j, c.SameAhead d → i.isSome = j.isSome →
      Beside (Agree c d) (p.run ctx fuel (.cursor c i) : Run σ P _)
        (p.run ctx fuel (.cursor d j))) ∧
    ∀ (o o' : Origin) tokens (k : Nat) c i j, o.ordered = true → o'.ordered = true →
      Cursor.at? o tokens (.int k) = .ok c → i.isSome = j.isSome →
      Beside (Shifted tokens k) (p.run ctx fuel (.cursor c i) : Run σ P _)
        (p.run ctx fuel (.cursor (.start o' (tokens.drop k)) j)) := by
  refine ⟨seesAhead_call hl fuel hp, fun o o' tokens k c i j ho ho' hc hij => ?_⟩
  refine (seesAhead_call hl fuel hp c _ i j (Cursor.sameAhead_start hc ho ho') hij).mono ?_
  exact fun x y h => h.shifted hc

end

/-! ## Items that nest

    items ::= item ("," item)*        item ::= identifier | "(" items ")" -/

section

open ParserAlgebra.Parser

/-- The recursive rule. -/
abbrev nested : Parser Catalogue := rule "items" (.word "items") none

/-- What the rule delegates to. -/
def items : Except (Error Catalogue) (Parser Catalogue) := do
  let opening ← (token (.ofText "(")).skip
  let closing ← (token (.ofText ")")).skip
  let inner ← sequence [opening, nested, closing]
  let item ← alternative [identifier, inner]
  let comma ← (token (.ofText ",")).lexeme
  item.separated comma (.ofAction .gather)

theorem composed_items {q : Parser Catalogue} (hq : items = .ok q) : Composed {nested} q := by
  obtain ⟨opening, ho, hq⟩ := exists_ok_of_bind hq
  obtain ⟨closing, hc, hq⟩ := exists_ok_of_bind hq
  obtain ⟨inner, hi, hq⟩ := exists_ok_of_bind hq
  obtain ⟨item, hitem, hq⟩ := exists_ok_of_bind hq
  obtain ⟨comma, hcomma, hq⟩ := exists_ok_of_bind hq
  have parts : ∀ p ∈ [opening, nested, closing], Composed {nested} p := by
    rintro p (_ | ⟨_, _ | ⟨_, _ | ⟨_, ⟨⟩⟩⟩⟩)
    · exact .skip .token ho
    · exact .leaf rfl fun j ps h => by contradiction
    · exact .skip .token hc
  have branches : ∀ p ∈ [identifier, inner], Composed {nested} p := by
    rintro p (_ | ⟨_, _ | ⟨_, ⟨⟩⟩⟩)
    · exact .identifier
    · exact .sequence parts hi
  exact .separated (.alternative branches hitem) (.lexeme .token hcomma) hq

/-- The stream `a,(b)`. -/
abbrev itemTokens : List (Value Catalogue) :=
  [.ofText "a", .ofText ",", .ofText "(", .ofText "b", .ofText ")"]

/-- A cursor behind `a,`. -/
abbrev behindComma : Cursor (Value Catalogue) :=
  .indexed ⟨some 1, true⟩ [.ofText ",", .ofText "a"] [.ofText "(", .ofText "b", .ofText ")"] false

/-- A linked cursor on another stream, `((b)`, that has `(b)` ahead as well. -/
abbrev behindParenthesis : Cursor (Value Catalogue) :=
  .linked ⟨some 2, true⟩ [.ofText "(", .ofText "(", .ofText "b", .ofText ")"] 1

/-- Nested items are read alike behind the comma, behind the parenthesis, and at the start of what
is left behind the comma. -/
theorem items_alike_ahead : ∃ q, items = .ok q ∧
    let ctx : Context Catalogue := ⟨fun _ => some (.ofParser q), true, .lenient⟩
    (∀ p ∈ ({nested} : Set (Parser Catalogue)), Delegating ctx.rules {nested} p) ∧
    Composed {nested} nested ∧ behindComma.SameAhead behindParenthesis ∧
    Cursor.at? ⟨some 1, true⟩ itemTokens (.int 2) = .ok behindComma ∧
    ∀ fuel,
      Beside (Agree behindComma behindParenthesis)
        (nested.run ctx fuel (.cursor behindComma (some 3)) : Run Nat Catalogue _)
        (nested.run ctx fuel (.cursor behindParenthesis (some 4))) ∧
      Beside (Shifted itemTokens 2)
        (nested.run ctx fuel (.cursor behindComma (some 3)) : Run Nat Catalogue _)
        (nested.run ctx fuel (.cursor (.start ⟨some 2, true⟩ (itemTokens.drop 2)) (some 4))) := by
  refine ⟨_, rfl, ?_⟩
  intro ctx
  have delegating : ∀ p ∈ ({nested} : Set (Parser Catalogue)), Delegating ctx.rules {nested} p := by
    rintro p rfl
    exact ⟨_, _, rfl, composed_items rfl, .rule rfl⟩
  have composed : Composed {nested} nested := .leaf rfl fun j ps h => by contradiction
  have ahead : behindComma.SameAhead behindParenthesis := ⟨rfl, ⟨rfl, by decide⟩, rfl⟩
  refine ⟨delegating, composed, ahead, rfl, fun fuel => ?_⟩
  have h := runs_alike_ahead (σ := Nat) ctx delegating composed fuel
  exact ⟨h.1 _ _ _ _ ahead rfl, h.2 _ _ _ _ _ _ _ rfl rfl rfl rfl⟩

end

end ParserAlgebra
