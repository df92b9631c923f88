import ParserAlgebra.Proofs.Ends
import ParserAlgebra.Proofs.Guarded.Steps

/-!
# Proofs/Ends/Rows — what parsers in a row are read as

    row (ps ++ qs)  =  row ps, followed by row qs         [v₁, …, vₙ]  ↦  all their components

A parser's result is read as a match or none, and parsers in a row as all of their matches or none.
Readings are composed by going on from a match (`Run.refined`): from what it produced, or just from
the cursor behind it (`Run.followed`); and what was produced may be changed on the way
(`Run.onValue`).  All obey the laws one expects, as equations between runs with the same fuel; only
where a parser calls another is there a unit to be made up.
-/

namespace ParserAlgebra

variable {P α β γ δ ε : Type}

open Value

/-! ## Readings -/

/-- **A match or none**: what is produced, and the next cursor. -/
abbrev Reading (P α : Type) := Option (α × Value P)

namespace Run

/-- The same matches, with something else made of what they produced. -/
def onValue (h : α → β) (r : Run Unit P (Reading P α)) : Run Unit P (Reading P β) :=
  r >>= fun m => pure (m.map fun x => (h x.1, x.2))

/-- **Going on from a match**: from what it produced and where it ended. -/
def refined (r : Run Unit P (Reading P α)) (f : α × Value P → Run Unit P (Reading P β)) :
    Run Unit P (Reading P β) :=
  r >>= fun m => m.elim (pure none) f

/-- **One match and another behind it**, if there are both. -/
def followed (r : Run Unit P (Reading P α)) (f : Value P → Run Unit P (Reading P β))
    (join : α → β → γ) : Run Unit P (Reading P γ) :=
  r >>= fun m => m.elim (pure none) fun x => onValue (join x.1) (f x.2)

variable {r : Run Unit P (Reading P α)} {f : Value P → Run Unit P (Reading P β)}
  {g : Value P → Run Unit P (Reading P γ)}

@[simp] theorem onValue_onValue (h : α → β) (k : β → γ) (r : Run Unit P (Reading P α)) :
    onValue k (onValue h r) = onValue (fun a => k (h a)) r := by
  simp only [onValue, bind_assoc, LawfulMonad.pure_bind]
  refine bind_congr fun m => ?_
  cases m <;> rfl

/-- **It does not matter where going on is interrupted.** -/
theorem refined_refined {f : α × Value P → Run Unit P (Reading P β)}
    {g : β × Value P → Run Unit P (Reading P γ)} :
    refined (refined r f) g = refined r fun x => refined (f x) g := by
  simp only [refined, bind_assoc]
  refine bind_congr fun m => ?_
  cases m <;> rfl

/-- From another match one goes on from the cursor behind it. -/
theorem followed_eq_refined (join : α → β → γ) :
    followed r f join = refined r fun x => onValue (join x.1) (f x.2) := rfl

@[simp] theorem onValue_followed (h : γ → δ) (join : α → β → γ) :
    onValue h (followed r f join) = followed r f fun a b => h (join a b) := by
  rw [onValue, followed, bind_assoc]
  refine bind_congr fun m => ?_
  cases m with
  | none => rfl
  | some x => exact onValue_onValue _ _ _

@[simp] theorem followed_onValue (h : δ → α) (r : Run Unit P (Reading P δ)) (join : α → β → γ) :
    followed (onValue h r) f join = followed r f fun a b => join (h a) b := by
  simp only [followed, onValue, bind_assoc, LawfulMonad.pure_bind]
  refine bind_congr fun m => ?_
  cases m <;> rfl

@[simp] theorem followed_onValue_right (h : β → γ) (join : α → γ → δ) :
    followed r (fun d => onValue h (f d)) join = followed r f fun a b => join a (h b) := by
  simp only [followed, onValue_onValue]

theorem onValue_id (r : Run Unit P (Reading P α)) : onValue (fun a => a) r = r := by
  rw [onValue]
  refine (bind_congr fun m => ?_).trans (bind_pure r)
  cases m <;> rfl

theorem pure_followed (a : α) (d : Value P) (join : α → β → γ) :
    followed (pure (some (a, d))) f join = onValue (join a) (f d) := rfl

/-- What is there at once behind a match. -/
theorem followed_pure (r : Run Unit P (Reading P α)) (b : β) (join : α → β → γ) :
    followed r (fun d => pure (some (b, d))) join = onValue (fun a => join a b) r := by
  rw [followed, onValue]
  refine bind_congr fun m => ?_
  cases m <;> rfl

/-- **It does not matter which of three readings are put together first.** -/
theorem followed_assoc {ζ : Type} {j : α → β → δ} {k : δ → γ → ζ} {l : β → γ → ε} {i : α → ε → ζ}
    (h : ∀ a b c, k (j a b) c = i a (l b c)) :
    followed (followed r f j) g k = followed r (fun d => followed (f d) g l) i := by
  conv => lhs; rw [followed, followed, bind_assoc]
  conv => rhs; rw [followed]
  refine bind_congr fun m => ?_
  cases m with
  | none => rfl
  | some x =>
    change followed (onValue (j x.1) (f x.2)) g k = onValue (i x.1) (followed (f x.2) g l)
    rw [followed_onValue, onValue_followed]
    simp only [h]

end Run

open Run

/-! ## Readings that end alike -/

section

variable {r t : Nat → Run Unit P (Reading P α)} {f g : Nat → Value P → Run Unit P (Reading P β)}

theorem Grows.onValue (hr : Grows r) (h : α → β) : Grows fun n => (r n).onValue h :=
  hr.bind fun _ => grows_const _

theorem Grows.refined {f : Nat → α × Value P → Run Unit P (Reading P β)} (hr : Grows r)
    (hf : ∀ x, Grows fun n => f n x) : Grows fun n => (r n).refined (f n) := by
  refine hr.bind fun m => ?_
  cases m with
  | none => exact grows_const _
  | some x => exact hf x

theorem Grows.followed (hr : Grows r) (hf : ∀ d, Grows fun n => f n d) (join : α → β → γ) :
    Grows fun n => (r n).followed (f n) join :=
  hr.refined fun x => (hf x.2).onValue (join x.1)

theorem Alike.onValue (hr : Grows r) (ht : Grows t) (h : Alike r t) {k l : α → β}
    (hk : ∀ a d, Ends r (.ok (some (a, d))) → k a = l a) :
    Alike (fun n => (r n).onValue k) fun n => (t n).onValue l := by
  refine h.bind hr ht fun m hm => ?_
  match m, hm with
  | none, _ => exact .refl _
  | some (a, d), hm =>
    simp only [Option.map_some, hk a d hm]
    exact .refl _

/-- Going on alike from the same matches ends alike. -/
theorem Alike.refined {f g : Nat → α × Value P → Run Unit P (Reading P β)} (hr : Grows r)
    (ht : Grows t) (h : Alike r t)
    (hfg : ∀ x, Ends r (.ok (some x)) → Alike (fun n => f n x) fun n => g n x) :
    Alike (fun n => (r n).refined (f n)) fun n => (t n).refined (g n) := by
  refine h.bind hr ht fun m hm => ?_
  cases m with
  | none => exact .refl _
  | some x => exact hfg x hm

/-- What is followed by something alike ends alike. -/
theorem Alike.followed (hr : Grows r) (ht : Grows t) (hf : ∀ d, Grows fun n => f n d)
    (hg : ∀ d, Grows fun n => g n d) (h : Alike r t)
    (hfg : ∀ a d, Ends r (.ok (some (a, d))) → Alike (fun n => f n d) fun n => g n d)
    (join : α → β → γ) :
    Alike (fun n => (r n).followed (f n) join) fun n => (t n).followed (g n) join :=
  h.refined hr ht fun x hx => (hfg x.1 x.2 hx).onValue (hf x.2) (hg x.2) fun _ _ _ => rfl

/-- **How a run that goes on ends**: as its first part, if that raises or is no match, and else as
what goes on. -/
theorem ends_refined {f : Nat → α × Value P → Run Unit P (Reading P β)} (hr : Grows r)
    {a : Except (Error P) (Reading P β)} : Ends (fun n => (r n).refined (f n)) a ↔
      (∃ e, Raises r e ∧ a = .error e) ∨ Ends r (.ok none) ∧ a = .ok none ∨
        ∃ x, Ends r (.ok (some x)) ∧ Ends (fun n => f n x) a := by
  refine (ends_bind hr).trans (or_congr_right ⟨?_, ?_⟩)
  · rintro ⟨m, hm, ha⟩
    cases m with
    | none => exact .inl ⟨hm, ends_pure_iff.1 ha⟩
    | some x => exact .inr ⟨x, hm, ha⟩
  · rintro (⟨hm, rfl⟩ | ⟨x, hm, ha⟩)
    · exact ⟨none, hm, comes_pure none⟩
    · exact ⟨some x, hm, ha⟩

/-- What a reading that changes what is produced comes to. -/
theorem ends_onValue {h : α → β} {m : Reading P β} (hr : Grows r) :
    Ends (fun n => (r n).onValue h) (.ok m) ↔
      ∃ k, Ends r (.ok k) ∧ m = k.map fun x => (h x.1, x.2) := by
  refine (ends_bind hr).trans ⟨?_, ?_⟩
  · rintro (⟨e, _, ⟨⟩⟩ | ⟨k, hk, hm⟩)
    exact ⟨k, hk, Except.ok.inj (ends_pure_iff.1 hm)⟩
  · rintro ⟨k, hk, rfl⟩
    exact .inr ⟨k, hk, comes_pure _⟩

/-- Where there is a match, what it was made of was produced there. -/
theorem ends_onValue_some {h : α → β} {b : β} {d : Value P} (hr : Grows r) :
    Ends (fun n => (r n).onValue h) (.ok (some (b, d))) ↔
      ∃ a, Ends r (.ok (some (a, d))) ∧ b = h a := by
  refine (ends_onValue hr).trans ⟨?_, ?_⟩
  · rintro ⟨m, hm, heq⟩
    match m, heq with
    | some (a, e), heq =>
      cases heq
      exact ⟨a, hm, rfl⟩
  · rintro ⟨a, ha, rfl⟩
    exact ⟨_, ha, rfl⟩

/-- Where there is none, there was none. -/
theorem ends_onValue_none {h : α → β} (hr : Grows r) :
    Ends (fun n => (r n).onValue h) (.ok none) ↔ Ends r (.ok none) := by
  refine (ends_onValue hr).trans ⟨?_, fun hm => ⟨none, hm, rfl⟩⟩
  rintro ⟨m, hm, heq⟩
  cases m with
  | none => exact hm
  | some x => contradiction

/-- Nothing else is raised. -/
theorem raises_onValue {h : α → β} {e : Error P} (hr : Grows r) :
    Raises (fun n => (r n).onValue h) e ↔ Raises r e := by
  refine (ends_bind hr).trans ⟨?_, fun he => .inl ⟨e, he, rfl⟩⟩
  rintro (⟨e', he, ⟨⟩⟩ | ⟨m, _, he⟩)
  · exact he
  · cases ends_pure_iff.1 he

/-- A match and another one behind it are both there. -/
theorem ends_followed_some {join : α → β → γ} {x : γ} {d : Value P} (hr : Grows r)
    (hf : ∀ d, Grows fun n => f n d) :
    Ends (fun n => (r n).followed (f n) join) (.ok (some (x, d))) ↔
      ∃ a e b, Ends r (.ok (some (a, e))) ∧ Ends (fun n => f n e) (.ok (some (b, d))) ∧
        x = join a b := by
  refine (ends_refined hr).trans ⟨?_, ?_⟩
  · rintro (⟨e, _, ⟨⟩⟩ | ⟨_, ⟨⟩⟩ | ⟨⟨a, e⟩, ha, hx⟩)
    obtain ⟨b, hb, rfl⟩ := (ends_onValue_some (hf e)).1 hx
    exact ⟨a, e, b, ha, hb, rfl⟩
  · rintro ⟨a, e, b, ha, hb, rfl⟩
    exact .inr (.inr ⟨_, ha, (ends_onValue_some (hf e)).2 ⟨b, hb, rfl⟩⟩)

/-- If there are not both, the first one is missing or the one behind it. -/
theorem ends_followed_none {join : α → β → γ} (hr : Grows r) (hf : ∀ d, Grows fun n => f n d) :
    Ends (fun n => (r n).followed (f n) join) (.ok none) ↔
      Ends r (.ok none) ∨ ∃ a e, Ends r (.ok (some (a, e))) ∧ Ends (fun n => f n e) (.ok none) := by
  refine (ends_refined hr).trans ⟨?_, ?_⟩
  · rintro (⟨e, _, ⟨⟩⟩ | ⟨hm, _⟩ | ⟨⟨a, e⟩, ha, hn⟩)
    · exact .inl hm
    · exact .inr ⟨a, e, ha, (ends_onValue_none (hf e)).1 hn⟩
  · rintro (hm | ⟨a, e, ha, hn⟩)
    · exact .inr (.inl ⟨hm, rfl⟩)
    · exact .inr (.inr ⟨_, ha, (ends_onValue_none (hf e)).2 hn⟩)

end

/-! ## Rows of parsers -/

variable [Primitive P] {rules : String → Option (Value P)}

section

variable (rules)

/-- **What a parser's result is read as.** -/
def reading (p : Parser P) (c : Value P) (n : Nat) : Run Unit P (Reading P (Value P)) :=
  p.run (quiet rules) n c >>= Value.readMatch

/-- **What parsers in a row are read as**: all of their values. -/
def row (ps : List (Parser P)) (c : Value P) (n : Nat) : Run Unit P (Reading P (List (Value P))) :=
  rowOf Unit rules n ps c

/-- The same, as the components of these values. -/
def parts (ps : List (Parser P)) (c : Value P) (n : Nat) :
    Run Unit P (Reading P (List (Value P))) :=
  (row rules ps c n).onValue (List.flatMap components)

end

variable {ps qs : List (Parser P)} {p q : Parser P} {c d : Value P} {n : Nat}

theorem row_nil : row rules [] c = fun _ => pure (some ([], c)) := rfl

theorem row_cons : row rules (p :: ps) c = fun n =>
    (reading rules p c n).followed (fun d => row rules ps d n) List.cons := by
  funext n
  simp only [row, reading, followed, onValue, bind_assoc]
  refine bind_congr fun x => bind_congr fun m => ?_
  cases m with
  | none => rfl
  | some vd =>
    refine bind_congr fun m => ?_
    cases m <;> rfl

/-- **A row and another behind it** are one row. -/
theorem row_append : row rules (ps ++ qs) c = fun n =>
    (row rules ps c n).followed (fun d => row rules qs d n) (· ++ ·) := by
  induction ps generalizing c with
  | nil =>
    funext n
    rw [row_nil, pure_followed]
    exact (onValue_id _).symm
  | cons p ps ih =>
    funext n
    simp only [List.cons_append, row_cons, ih]
    exact (followed_assoc (j := List.cons) (k := (· ++ ·)) (l := (· ++ ·)) (i := List.cons)
      fun _ _ _ => rfl).symm

theorem row_singleton : row rules [p] c = fun n => (reading rules p c n).onValue fun v => [v] := by
  funext n
  simp only [row_cons, row_nil]
  exact followed_pure _ _ _

theorem parts_singleton :
    parts rules [p] c = fun n => (reading rules p c n).onValue components := by
  funext n
  simp only [parts, row_singleton, onValue_onValue, List.flatMap_singleton]

theorem parts_append : parts rules (ps ++ qs) c = fun n =>
    (parts rules ps c n).followed (fun d => parts rules qs d n) (· ++ ·) := by
  funext n
  simp only [parts, row_append, onValue_followed, followed_onValue, followed_onValue_right,
    List.flatMap_append]

theorem grows_reading : Grows (reading rules p c) :=
  (grows_call _ _).bind fun _ => grows_const _

theorem grows_row : Grows (row rules ps c) :=
  fun _ _ h => Congruence.runAll (C := below) (calls_below rules h) ps c

theorem grows_parts : Grows (parts rules ps c) := grows_row.onValue _

end ParserAlgebra
