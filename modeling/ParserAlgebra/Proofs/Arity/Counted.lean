import ParserAlgebra.Proofs.Operators.Regions

/-!
# Proofs/Arity/Counted — parsers whose arities are counts

    sequence(p₁, …, pₙ)  produces  a₁ + … + aₙ  components

A declared arity may be anything.  Where it is a count for each parser, or unknown, no call of
`sequence` is refused, and the arity of a sequence is the sum of its members'.  How the members are
grouped does not matter for a sum, and members that produce nothing do not count.
-/

namespace ParserAlgebra

variable {P : Type}

/-- A number that is whole is less than another if what is meant is. -/
theorem Number.lessThan_of_whole? {n : Number} {i : Int} (h : n.whole? = some i) (j : Int) :
    n.lessThan (.int j) = decide (i < j) := by
  rw [← lessThan_int, lessThan, lessThan, atMost, atMost, toDecimal_of_whole? h]
  rfl

namespace Parser

/-- **A parser whose name is a text and whose arity is a count**, if it has one. -/
structure Counted (p : Parser P) : Prop where
  name_isText : p.name.isText = true
  exists_count : ∀ x, p.declared = some x →
    ∃ (k : Number) (n : Nat), x.number? = some k ∧ k.whole? = some (n : Int)

/-- **How many components all parsers produce together**, if all arities are known. -/
def totalArity : List (Parser P) → Option Int
  | [] => some 0
  | p :: ps => p.arity.bind fun m => (totalArity ps).map fun n => m + n

variable {p q : Parser P} {ps qs : List (Parser P)}

theorem arity_of_declared {x : Value P} {k : Number} (hp : p.declared = some x)
    (hx : x.number? = some k) : p.arity = k.whole? := by
  rw [arity, hp, Option.bind_some, hx, Option.bind_some]

theorem Counted.exists_nat (h : p.Counted) {n : Int} (hn : p.arity = some n) :
    ∃ m : Nat, n = m := by
  match hd : p.declared with
  | none => simp [arity, hd] at hn
  | some x =>
    obtain ⟨k, m, hk, hm⟩ := h.exists_count x hd
    rw [arity_of_declared hd hk, hm] at hn
    exact ⟨m, (Option.some.inj hn).symm⟩

theorem Counted.typed (h : p.Counted) : p.Typed where
  name_isText := h.name_isText
  declared_isNumber x hx := by
    obtain ⟨k, _, hk, _⟩ := h.exists_count x hx
    rw [hk]
    rfl

theorem totalArity_singleton (p : Parser P) : totalArity [p] = p.arity := by
  cases h : p.arity <;> simp [totalArity, h]

/-- The arities of two rows are added up. -/
theorem totalArity_append (ps qs : List (Parser P)) : totalArity (ps ++ qs) =
    (totalArity ps).bind fun m => (totalArity qs).map fun n => m + n := by
  induction ps with
  | nil => cases h : totalArity qs <;> simp [totalArity, h]
  | cons p ps ih =>
    rw [List.cons_append, totalArity, ih, totalArity]
    cases p.arity <;> cases totalArity ps <;> cases totalArity qs <;> simp [Int.add_assoc]

/-- **Counts are added up as they are declared**, and their sum is a count. -/
theorem sumArity_of_counted (h : ∀ p ∈ ps, p.Counted) :
    sumArity ps = none ∧ totalArity ps = none ∨
      ∃ n : Nat, sumArity ps = some (.int n) ∧ totalArity ps = some (n : Int) := by
  induction ps with
  | nil => exact .inr ⟨0, rfl, rfl⟩
  | cons p ps ih =>
    obtain ⟨hp, hps⟩ := List.forall_mem_cons.1 h
    simp only [sumArity, totalArity]
    match hd : p.declared with
    | none => exact .inl ⟨rfl, by simp [arity, hd]⟩
    | some x =>
      obtain ⟨k, m, hk, hm⟩ := hp.exists_count x hd
      rw [arity_of_declared hd hk, hm]
      obtain ⟨hsum, htotal⟩ | ⟨n, hsum, htotal⟩ := ih hps
      · exact .inl ⟨by rw [hsum], by rw [htotal]; rfl⟩
      · refine .inr ⟨m + n, ?_, by rw [htotal]; rfl⟩
        simp [hsum, hk, Number.add, hm]

/-- **A parser of known arity is checked against it.** -/
theorem exists_checkArity_eq {n : Int} (hn : p.arity = some n) (m : Mapper P) :
    ∃ x, p.declared = some x ∧ p.checkArity m =
      if n < m.requires then p.titled.bind fun p => .error (.grammar (.tooFew p x m.requires))
      else .ok () := by
  obtain ⟨k, hk, hw⟩ := Option.bind_eq_some_iff.1 hn
  obtain ⟨x, hx, hk⟩ := Option.bind_eq_some_iff.1 hk
  refine ⟨x, hx, ?_⟩
  simp only [checkArity, hx, hk, Number.lessThan_of_whole? hw, decide_eq_true_eq]

/-- What is refused is not admitted. -/
theorem checkArity_eq_ok_iff {n : Int} (hn : p.arity = some n) {m : Mapper P} :
    p.checkArity m = .ok () ↔ (m.requires : Int) ≤ n := by
  obtain ⟨x, _, hc⟩ := exists_checkArity_eq hn m
  rw [hc]
  split
  · rename_i hlt
    refine ⟨fun h => ?_, fun h => absurd hlt (by omega)⟩
    cases ht : p.titled <;> rw [ht] at h <;> contradiction
  · rename_i hle
    exact ⟨fun _ => by omega, fun _ => rfl⟩

/-- Parsers that declare the same are admitted alike. -/
theorem checkArity_of_declared {m : Mapper P} (h : p.checkArity m = .ok ())
    (hq : q.declared = p.declared) : q.checkArity m = .ok () := by
  unfold checkArity at h ⊢
  rw [hq]
  cases hd : p.declared with
  | none => rfl
  | some x =>
    simp only [hd] at h ⊢
    cases hx : x.number? with
    | none => simp only [hx, reduceCtorEq] at h
    | some k =>
      simp only [hx] at h ⊢
      split at h
      · cases ht : p.titled <;> rw [ht] at h <;> contradiction
      · rename_i hlt
        rw [if_neg hlt]

variable [Labelled P]

/-- **The arity of a sequence is the sum of its members'.** -/
theorem arity_sequenced (h : ∀ p ∈ ps, p.Counted) : (sequenced ps).arity = totalArity ps := by
  obtain ⟨hsum, htotal⟩ | ⟨n, hsum, htotal⟩ := sumArity_of_counted h
  · simp [arity, sequenced, hsum, htotal]
  · simp [arity, sequenced, hsum, htotal]

theorem counted_sequenced (h : ∀ p ∈ ps, p.Counted) : (sequenced ps).Counted where
  name_isText := rfl
  exists_count x hx := by
    obtain ⟨hsum, _⟩ | ⟨n, hsum, _⟩ := sumArity_of_counted h
    · simp [sequenced, hsum] at hx
    · refine ⟨.int n, n, ?_, rfl⟩
      simp only [sequenced, hsum, Option.map_some, Option.some.injEq] at hx
      rw [← hx, Value.number?_ofNumber]

/-- **Counted parsers can be put in a row**, if there are any, and the row is counted. -/
theorem sequence_of_counted (h : ∀ p ∈ ps, p.Counted) (hne : ps ≠ []) :
    ∃ q, sequence ps = .ok q ∧ q.Counted ∧ q.arity = totalArity ps := by
  match ps with
  | [p] => exact ⟨p, rfl, h p (List.mem_singleton_self p), (totalArity_singleton p).symm⟩
  | p :: q :: ps =>
    have typed : ∀ r ∈ p :: q :: ps, r.Typed := fun r hr => (h r hr).typed
    exact ⟨_, sequence_cons_cons (summable_of_typed typed) (allNamed_of_typed typed),
      counted_sequenced h, arity_sequenced h⟩

/-- A mapper is put behind a counted parser, if that produces as much as the mapper requires. -/
theorem map_of_counted {m : Mapper P} (hp : p.Counted)
    (hm : ∀ n, p.arity = some n → (m.requires : Int) ≤ n) : p.map m = .ok (p.mapped m) := by
  have admitted : p.checkArity m = .ok () := by
    match hd : p.declared with
    | none => simp only [checkArity, hd]
    | some x =>
      obtain ⟨k, n, hk, hn⟩ := hp.exists_count x hd
      have count := (arity_of_declared hd hk).trans hn
      exact (checkArity_eq_ok_iff count).2 (hm n count)
  simp only [map, admitted, titled_of_isText hp.name_isText]
  cases m.isFallible <;> rfl

/-- A mapper that requires nothing is put behind any counted parser. -/
theorem map_of_counted_of_requires {m : Mapper P} (hp : p.Counted) (hm : m.requires = 0) :
    p.map m = .ok (p.mapped m) := by
  refine map_of_counted hp fun n hn => ?_
  obtain ⟨k, rfl⟩ := hp.exists_nat hn
  rw [hm]
  exact Int.natCast_nonneg k

/-- Behind a mapper that declares a count there is a counted parser. -/
theorem counted_mapped (hp : p.name.isText = true) (f : Callable P) (n : Nat) :
    (p.mapped (.total f (some (.ofInt n)))).Counted where
  name_isText := hp
  exists_count x hx := by
    cases hx
    exact ⟨.int n, n, rfl, rfl⟩

/-- A counted parser can be skipped. -/
theorem skip_of_counted (hp : p.Counted) : p.skip = .ok p.skipped := by
  simp only [skip, map_of_counted_of_requires (m := .discard) hp rfl,
    titled_of_isText hp.name_isText]
  rfl

/-- What is skipped produces nothing. -/
theorem counted_skipped (p : Parser P) : p.skipped.Counted where
  name_isText := rfl
  exists_count x hx := by
    cases hx
    exact ⟨.int 0, 0, rfl, rfl⟩

@[simp] theorem arity_skipped (p : Parser P) : p.skipped.arity = some 0 := rfl

end Parser

end ParserAlgebra
