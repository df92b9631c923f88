import ParserAlgebra.Proofs.Comes

/-!
# Proofs/Ends — how a run ends, given enough fuel

    r ends with an error                       r >>= f  ends with it
    r ends with x, and f x ends with a         r >>= f  ends with a

A run that more fuel keeps (`Grows`) ends in one way from some fuel on, or in no way at all, and how
a composition ends is settled by how its parts do (`ends_bind`).  So two runs may be compared by all
ways in which they end (`Alike`), errors included: what is composed of runs that end alike ends
alike, though the one may take more fuel than the other.
-/

namespace ParserAlgebra

variable {P α β : Type}

/-! ## From some fuel on -/

/-- **From some fuel on, the run ends with `a`**: it returns that, or raises it. -/
def Ends (r : Nat → Run Unit P α) (a : Except (Error P) α) : Prop :=
  ∃ m, ∀ n ≥ m, (r n).outcome = a.mapError .raised

/-- **The run raises an error**, from some fuel on. -/
abbrev Raises (r : Nat → Run Unit P α) (e : Error P) : Prop := Ends r (.error e)

theorem ends_ok_iff {r : Nat → Run Unit P α} {x : α} : Ends r (.ok x) ↔ Comes r x := Iff.rfl

theorem mapError_raised_inj {a b : Except (Error P) α}
    (h : a.mapError Halt.raised = b.mapError .raised) : a = b := by
  match a, b with
  | .ok _, .ok _ =>
    cases h
    rfl
  | .error _, .error _ =>
    cases h
    rfl

/-- A run ends in one way only. -/
theorem Ends.unique {r : Nat → Run Unit P α} {a b : Except (Error P) α} (h : Ends r a)
    (k : Ends r b) : b = a := by
  obtain ⟨m, hm⟩ := h
  obtain ⟨l, hl⟩ := k
  exact mapError_raised_inj ((hl (max m l) (by omega)).symm.trans (hm (max m l) (by omega)))

/-- A run that ends in one way ends in that way alone. -/
theorem Ends.iff_eq {r : Nat → Run Unit P α} {a b : Except (Error P) α} (h : Ends r a) :
    Ends r b ↔ b = a := by
  refine ⟨h.unique, ?_⟩
  rintro rfl
  exact h

/-- What returns at once ends in no other way. -/
theorem ends_pure_iff {x : α} {a : Except (Error P) α} :
    Ends (fun _ => (pure x : Run Unit P α)) a ↔ a = .ok x := (ends_ok_iff.2 (comes_pure x)).iff_eq

/-- So does what raises at once. -/
theorem ends_raise_iff {e : Error P} {a : Except (Error P) α} :
    Ends (fun _ => (Run.raise e : Run Unit P α)) a ↔ a = .error e := by
  have raised : Raises (fun _ => (Run.raise e : Run Unit P α)) e := ⟨0, fun _ _ => rfl⟩
  exact raised.iff_eq

/-- One unit more or less does not matter. -/
theorem ends_succ {r : Nat → Run Unit P α} {a : Except (Error P) α} :
    Ends (fun n => r (n + 1)) a ↔ Ends r a := by
  constructor
  · rintro ⟨m, hm⟩
    refine ⟨m + 1, fun n hn => ?_⟩
    obtain ⟨n, rfl⟩ : ∃ k, n = k + 1 := ⟨n - 1, by omega⟩
    exact hm n (by omega)
  · rintro ⟨m, hm⟩
    exact ⟨m, fun n hn => hm (n + 1) (by omega)⟩

/-! ## Runs that more fuel keeps -/

/-- **More fuel keeps what the run finished.** -/
def Grows (r : Nat → Run Unit P α) : Prop := ∀ m n, m ≤ n → (r m).Below (r n)

theorem grows_const (r : Run Unit P α) : Grows fun _ => r := fun _ _ _ => Run.Below.refl r

theorem Grows.bind {r : Nat → Run Unit P α} {f : Nat → α → Run Unit P β} (h : Grows r)
    (hf : ∀ x, Grows fun n => f n x) : Grows fun n => r n >>= f n :=
  fun m n hmn => (h m n hmn).bind fun x => hf x m n hmn

/-- What a run returned or raised with some fuel it ends with. -/
theorem Grows.ends {r : Nat → Run Unit P α} {a : Except (Error P) α} {m : Nat} (h : Grows r)
    (hm : (r m).outcome = a.mapError .raised) : Ends r a := by
  refine ⟨m, fun n hn => ?_⟩
  rw [outcome_eq_of_below (h m n hn), hm]
  rw [hm]
  match a with
  | .ok _ => nofun
  | .error _ => nofun

/-- **How a composition ends** is settled by how its parts do. -/
theorem ends_bind {r : Nat → Run Unit P α} {f : Nat → α → Run Unit P β} (h : Grows r)
    {a : Except (Error P) β} : Ends (fun n => r n >>= f n) a ↔
      (∃ e, Raises r e ∧ a = .error e) ∨ ∃ x, Ends r (.ok x) ∧ Ends (fun n => f n x) a := by
  constructor
  · rintro ⟨m, hm⟩
    have ended := hm m (Nat.le_refl m)
    match hr : (r m).outcome with
    | .error halt =>
      rw [Run.outcome_bind_of_error hr] at ended
      match a with
      | .error e =>
        cases ended
        exact .inl ⟨e, h.ends hr, rfl⟩
    | .ok x =>
      refine .inr ⟨x, h.ends hr, m, fun n hn => ?_⟩
      have later : (r n).outcome = .ok x := by
        rw [outcome_eq_of_below (h m n hn), hr]
        rw [hr]
        nofun
      rw [← Run.outcome_bind_of_ok later (f n)]
      exact hm n hn
  · rintro (⟨e, ⟨m, hm⟩, rfl⟩ | ⟨x, ⟨m, hm⟩, k, hk⟩)
    · exact ⟨m, fun n hn => Run.outcome_bind_of_error (hm n hn) (f n)⟩
    · refine ⟨max m k, fun n hn => ?_⟩
      rw [Run.outcome_bind_of_ok (hm n (by omega)), hk n (by omega)]

/-! ## Runs that end alike -/

/-- **Two runs end alike**: whatever the one returns or raises, the other does, and if the one does
not end the other does not. -/
def Alike (r t : Nat → Run Unit P α) : Prop := ∀ a, Ends r a ↔ Ends t a

namespace Alike

variable {r t u : Nat → Run Unit P α} {f g : Nat → α → Run Unit P β}

theorem refl (r : Nat → Run Unit P α) : Alike r r := fun _ => Iff.rfl

theorem symm (h : Alike r t) : Alike t r := fun a => (h a).symm

theorem trans (h : Alike r t) (k : Alike t u) : Alike r u := fun a => (h a).trans (k a)

theorem of_eq (h : ∀ n, r n = t n) : Alike r t := by
  obtain rfl : r = t := funext h
  exact refl r

/-- What takes one unit more ends alike. -/
theorem of_succ (h : ∀ n, r (n + 1) = t n) : Alike r t :=
  fun a => ends_succ.symm.trans (of_eq h a)

/-- Two runs that end in one way end alike. -/
theorem of_ends {a : Except (Error P) α} (h : Ends r a) (k : Ends t a) : Alike r t :=
  fun _ => h.iff_eq.trans k.iff_eq.symm

/-- A run that returns is a run that returns at once. -/
theorem of_comes {x : α} (h : Comes r x) : Alike r fun _ => pure x :=
  of_ends (ends_ok_iff.2 h) (comes_pure x)

/-- **What goes on from a run that returns** goes on from what that returns. -/
theorem of_ends_bind {x : α} (h : Ends r (.ok x)) :
    Alike (fun n => r n >>= f n) fun n => f n x := by
  obtain ⟨m, hm⟩ := h
  have same {n : Nat} (hn : m ≤ n) : (r n >>= f n).outcome = (f n x).outcome :=
    Run.outcome_bind_of_ok (hm n hn) (f n)
  refine fun a => ⟨?_, ?_⟩
  · rintro ⟨k, hk⟩
    exact ⟨max m k, fun n hn => by rw [← same (by omega), hk n (by omega)]⟩
  · rintro ⟨k, hk⟩
    exact ⟨max m k, fun n hn => by rw [same (by omega), hk n (by omega)]⟩

/-- **Composition keeps alike what is alike**, and only what the first run returns has to be looked
at. -/
theorem bind (hr : Grows r) (ht : Grows t) (h : Alike r t)
    (hf : ∀ x, Ends r (.ok x) → Alike (fun n => f n x) fun n => g n x) :
    Alike (fun n => r n >>= f n) fun n => t n >>= g n := by
  intro a
  rw [ends_bind hr, ends_bind ht]
  refine or_congr ?_ ?_
  · exact exists_congr fun e => and_congr_left fun _ => h _
  · refine exists_congr fun x => ⟨fun ⟨hx, ha⟩ => ?_, fun ⟨hx, ha⟩ => ?_⟩
    · exact ⟨(h _).1 hx, (hf x hx a).1 ha⟩
    · exact ⟨(h _).2 hx, (hf x ((h _).2 hx) a).2 ha⟩

end Alike

/-! ## Calls -/

variable [Primitive P] {rules : String → Option (Value P)}

theorem grows_call (f : Callable P) (args : List (Value P)) :
    Grows fun n => (call (quiet rules) n f args : Run Unit P _) :=
  fun _ _ h => call_of_le _ h f args

/-- What a function returns or raises is how a call of it ends. -/
theorem returns_iff_ends {f : Callable P} {args : List (Value P)}
    {a : Except (Error P) (Value P)} : Returns rules f args a ↔
      Ends (fun n => (call (quiet rules) n f args : Run Unit P _)) a :=
  ⟨fun ⟨_, h⟩ => (grows_call f args).ends h, fun ⟨m, h⟩ => ⟨m, h m (Nat.le_refl m)⟩⟩

/-- **A parser's run ends as its body does.** -/
theorem alike_body (p : Parser P) (c : Value P) : Alike (fun n => p.run (quiet rules) n c)
    fun n => p.body.apply (call (quiet rules) n) n c :=
  .of_succ fun n => call_body n p c

/-- So does a call of an action. -/
theorem alike_action (a : Action P) (args : List (Value P)) :
    Alike (fun n => call (quiet rules) n (.action a) args) fun n =>
      a.apply (call (quiet rules) n) (quiet rules) args := by
  refine .of_succ fun n => ?_
  simp only [call, Run.own_unit, bind_pure]

/-- A parser under another name does the same. -/
theorem run_named (p : Parser P) (name c : Value P) (n : Nat) :
    ((p.named name).run (quiet rules) n c : Run Unit P _) = p.run (quiet rules) n c := by
  cases n with
  | zero => rfl
  | succ n =>
    simp only [Parser.run, call_body]
    rfl

end ParserAlgebra
