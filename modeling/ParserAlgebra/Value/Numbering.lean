import ParserAlgebra.Value

/-!
# Value/Numbering — numbers for the objects that were just made

Whoever holds on to a value can ask later which object it is, and may have it in more than one place
by then.  So before that, a value is numbered with all that is inside: first the members, then the
whole.  What has a number already has kept it since it was made, and so have its members.

A silent supply leaves everything as it is (`numbered_unit`).
-/

namespace ParserAlgebra.Value

variable {σ P : Type} [Supply σ]

/-- The number of an object, or else the next one; and what is left of the supply. -/
def settle (identity : Identity) (s : σ) : Identity × σ :=
  match identity with
  | some i => (some i, s)
  | none => Supply.next s

mutual

/-- **A value with every object in it numbered**, and what is left of the supply.  A parser brings
its name and its arity along. -/
def numbered : Value P → σ → Value P × σ
  | int n none, s =>
    let (i, s) := Supply.next s
    (int n i, s)
  | decimal d none, s =>
    let (i, s) := Supply.next s
    (decimal d i, s)
  | nan none, s =>
    let (i, s) := Supply.next s
    (nan i, s)
  | anything none, s =>
    let (i, s) := Supply.next s
    (anything i, s)
  | text t none, s =>
    let (i, s) := Supply.next s
    (text t i, s)
  | charset cs none, s =>
    let (i, s) := Supply.next s
    (charset cs i, s)
  | list xs none, s =>
    let (ys, s) := numberedAll xs s
    let (i, s) := Supply.next s
    (list ys i, s)
  | tuple xs none, s =>
    let (ys, s) := numberedAll xs s
    let (i, s) := Supply.next s
    (tuple ys i, s)
  | composite xs none, s =>
    let (ys, s) := numberedAll xs s
    let (i, s) := Supply.next s
    (composite ys i, s)
  | iterable xs none, s =>
    let (ys, s) := numberedAll xs s
    let (i, s) := Supply.next s
    (iterable ys i, s)
  | present x none, s =>
    let (y, s) := x.numbered s
    let (i, s) := Supply.next s
    (present y i, s)
  | anotherAbsent none, s =>
    let (i, s) := Supply.next s
    (anotherAbsent i, s)
  | cursor c none, s =>
    let (i, s) := Supply.next s
    (cursor c i, s)
  | stray stream place none, s =>
    let (stream, s) := stream.numbered s
    let (place, s) := place.numbered s
    let (i, s) := Supply.next s
    (stray stream place i, s)
  | success v n none, s =>
    let (v, s) := v.numbered s
    let (n, s) := n.numbered s
    let (i, s) := Supply.next s
    (success v n i, s)
  | anotherFailure none, s =>
    let (i, s) := Supply.next s
    (anotherFailure i, s)
  | callable (.parser ⟨name, some declared, body, chain⟩) none, s =>
    let (name, s) := name.numbered s
    let (declared, s) := declared.numbered s
    let (i, s) := Supply.next s
    (callable (.parser ⟨name, some declared, body, chain⟩) i, s)
  | callable (.parser ⟨name, none, body, chain⟩) none, s =>
    let (name, s) := name.numbered s
    let (i, s) := Supply.next s
    (callable (.parser ⟨name, none, body, chain⟩) i, s)
  | callable (.mapper m) none, s =>
    let (i, s) := Supply.next s
    (callable (.mapper m) i, s)
  | callable (.action a) none, s =>
    let (i, s) := Supply.next s
    (callable (.action a) i, s)
  | report r none, s =>
    let (i, s) := Supply.next s
    (report r i, s)
  | x, s => (x, s)

/-- Values numbered one after the other. -/
def numberedAll : List (Value P) → σ → List (Value P) × σ
  | [], s => ([], s)
  | x :: xs, s =>
    let (y, s) := x.numbered s
    let (ys, s) := numberedAll xs s
    (y :: ys, s)

end

/-- What has a number keeps it. -/
theorem numbered_composite_some (xs : List (Value P)) (i : Nat) (s : σ) :
    (composite xs (some i)).numbered s = (composite xs (some i), s) := by
  rw [numbered] <;> simp

theorem numbered_success_some (v n : Value P) (i : Nat) (s : σ) :
    (success v n (some i)).numbered s = (success v n (some i), s) := by
  rw [numbered] <;> simp

/-- There is one object that is no match. -/
theorem numbered_failure (s : σ) : (failure : Value P).numbered s = (failure, s) := by
  rw [numbered] <;> simp

/-- A new composite without components takes a number for itself. -/
theorem numbered_composite_nil (s : σ) : (composite [] none : Value P).numbered s =
    (composite [] (Supply.next s).1, (Supply.next s).2) := by
  rw [numbered, numberedAll]

/-- A new match is numbered after what is in it. -/
theorem numbered_success_none (v n : Value P) (s : σ) :
    (success v n none).numbered s =
      let v' := v.numbered s
      let n' := n.numbered v'.2
      (success v'.1 n'.1 (Supply.next n'.2).1, (Supply.next n'.2).2) := by
  rw [numbered]

/-- Nothing inside a cursor is numbered, only the cursor itself. -/
theorem numbered_cursor (c : Cursor (Value P)) (i : Identity) (s : σ) :
    (cursor c i).numbered s = (cursor c (settle i s).1, (settle i s).2) := by
  cases i with
  | none =>
    rw [numbered]
    rfl
  | some i =>
    rw [numbered] <;> simp [settle]

/-- As many values are numbered as there are. -/
theorem length_numberedAll (xs : List (Value P)) (s : σ) :
    (numberedAll xs s).1.length = xs.length := by
  induction xs generalizing s with
  | nil => rw [numberedAll]
  | cons x xs ih => rw [numberedAll]; simp [ih]

/-- Numbering a value does not change whether it counts as true. -/
theorem isTruthy_numbered (x : Value P) (s : σ) : (x.numbered s).1.isTruthy = x.isTruthy := by
  have empty (xs : List (Value P)) (s : σ) : (numberedAll xs s).1.isEmpty = xs.isEmpty := by
    rw [Bool.eq_iff_iff, List.isEmpty_iff_length_eq_zero, List.isEmpty_iff_length_eq_zero,
      length_numberedAll]
  unfold numbered
  split <;> simp only [isTruthy, empty]

/-- A match is numbered with what is in it. -/
theorem exists_numbered_success (v n : Value P) (i : Identity) (s : σ) :
    ∃ v' n' j, ((success v n i).numbered s).1 = success v' n' j := by
  cases i with
  | none =>
    rw [numbered]
    exact ⟨_, _, _, rfl⟩
  | some i => exact ⟨v, n, some i, by rw [numbered_success_some]⟩

/-- **A numbered match was a match before**, and what is in it stayed as it was or was numbered. -/
theorem exists_of_numbered_success {x v n : Value P} {i : Identity} {s : σ}
    (h : (x.numbered s).1 = success v n i) : ∃ v' n' j, x = success v' n' j ∧
      (v = v' ∧ n = n' ∨ ∃ s' : σ, v = (v'.numbered s).1 ∧ n = (n'.numbered s').1) := by
  unfold numbered at h
  split at h <;> try cases h
  · exact ⟨_, _, _, rfl, .inr ⟨_, rfl, rfl⟩⟩
  · exact ⟨v, n, i, rfl, .inl ⟨rfl, rfl⟩⟩

/-- **Without numbers to hand out, values stay as they are.** -/
theorem numbered_numberedAll_silent [Supply.Silent σ] :
    (∀ (x : Value P) (s : σ), x.numbered s = (x, s)) ∧
      ∀ (xs : List (Value P)) (s : σ), numberedAll xs s = (xs, s) := by
  apply numbered.mutual_induct
    (fun (x : Value P) (s : σ) => x.numbered s = (x, s))
    (fun (xs : List (Value P)) (s : σ) => numberedAll xs s = (xs, s)) <;>
  intros <;> simp_all [numbered, numberedAll, Supply.Silent.next_eq]

@[simp] theorem numbered_unit (x : Value P) (u : Unit) : x.numbered u = (x, u) :=
  numbered_numberedAll_silent.1 x u

end ParserAlgebra.Value
