import ParserAlgebra.Catalogue.Readers
import ParserAlgebra.Proofs.Finds
import ParserAlgebra.Proofs.Selection

/-!
# Proofs/Selection/Checked — which selections are checked

    p ──select i──▸                 an index that is not there      is refused
    p ──select i, as fallible──▸    an index that is not there      is looked up where p matches

A selection knows how many components it requires, and it is compared with the arity of the parser
before anything is run.  Read as fallible it is a function like any other, which requires nothing.
So it is admitted whatever its indices are, and one that is not there is found missing by the first
match.
-/

namespace ParserAlgebra

open Value ParserAlgebra.Parser ParserAlgebra.Run

variable {P : Type} {is : List Nat} {n : Int} {p q : Parser P}

/-! ## Indices that are not there -/

/-- What is chosen is there. -/
theorem Mapper.forall_lt_of_mapM {xs ys : List (Value P)}
    (h : (is.mapM fun i => xs[i]?) = some ys) : ∀ i ∈ is, i < xs.length := by
  induction is generalizing ys with
  | nil => exact List.forall_mem_nil _
  | cons i is ih =>
    rw [List.mapM_cons] at h
    obtain ⟨x, hx, h⟩ := Option.bind_eq_some_iff.1 h
    obtain ⟨zs, hzs, _⟩ := Option.bind_eq_some_iff.1 h
    exact List.forall_mem_cons.2 ⟨(List.getElem?_eq_some_iff.1 hx).1, ih hzs⟩

/-- **An index that is not there is out of range**, and that is all that can go wrong. -/
theorem Mapper.choose_eq_error_iff {xs : List (Value P)} {e : Error P} :
    Mapper.choose is xs = .error e ↔ e = .outOfRange ∧ ∃ i ∈ is, xs.length ≤ i := by
  rw [choose_eq]
  match h : is.mapM fun i => xs[i]? with
  | some ys =>
    refine ⟨nofun, ?_⟩
    rintro ⟨_, i, hi, hle⟩
    exact absurd (forall_lt_of_mapM h i hi) (Nat.not_lt.2 hle)
  | none =>
    have missing : ∃ i ∈ is, xs.length ≤ i := by
      refine Classical.byContradiction fun hnone => ?_
      have inside : ∀ i ∈ is, i < xs.length := fun i hi =>
        Nat.lt_of_not_le fun hle => hnone ⟨i, hi, hle⟩
      obtain ⟨ys, hys⟩ := exists_mapM inside
      rw [h] at hys
      contradiction
    refine ⟨fun heq => ⟨(Except.error.inj heq).symm, missing⟩, ?_⟩
    rintro ⟨rfl, _⟩
    rfl

/-! ## A selection read as fallible -/

/-- What becomes of the answer of a fallible mapper. -/
def fallibleAnswer (d : Value P) : Value P → Run Unit P (Value P)
  | .present x _ => pure (.success x.unwrap d none)
  | .absent | .anotherAbsent _ => pure .failure
  | w => do Run.raise (.badOutcome (← Run.ofExcept w.shown))

/-- An answer of the wrong kind is not out of range. -/
theorem not_raises_fallibleAnswer (d w : Value P) :
    ¬Raises (fun _ => fallibleAnswer d w) .outOfRange := by
  rintro ⟨m, hm⟩
  have ended := hm m (Nat.le_refl m)
  unfold fallibleAnswer at ended
  split at ended
  · contradiction
  · contradiction
  · contradiction
  · unfold shown at ended
    split at ended <;> cases ended

section

variable [Primitive P] {rules : String → Option (Value P)} {c d v : Value P}

/-- A selection read as fallible answers with what it chooses. -/
theorem alike_runMapper_asFallible :
    Alike (fun k => Body.runMapper (call (quiet rules) k) (Mapper.select is).asFallible
      (.success v d none)) fun _ =>
        Run.ofExcept (Mapper.choose is v.components) >>= fallibleAnswer d := by
  have chosen : Alike (fun k => call (quiet rules) k (.action (.choose is)) v.components) fun _ =>
      Run.ofExcept (Mapper.choose is v.components) := alike_action _ _
  refine .trans (.of_eq fun k => ?_) (chosen.bind (grows_call _ _) (grows_const _)
    (g := fun _ => fallibleAnswer d) fun _ _ => .refl _)
  change (call (quiet rules) k (.action (.choose is)) v.components >>= _) = _
  refine bind_congr fun w => ?_
  cases w <;> rfl

/-- **It raises where an index is not there.** -/
theorem raises_runMapper_asFallible_iff :
    Raises (fun k => Body.runMapper (call (quiet rules) k) (Mapper.select is).asFallible
      (.success v d none)) .outOfRange ↔ ∃ i ∈ is, v.components.length ≤ i := by
  refine (alike_runMapper_asFallible _).trans ?_
  match h : Mapper.choose is v.components with
  | .ok w =>
    refine iff_of_false (not_raises_fallibleAnswer d w) fun missing => ?_
    rw [Mapper.choose_eq_error_iff.2 ⟨rfl, missing⟩] at h
    contradiction
  | .error e =>
    obtain ⟨rfl, missing⟩ := Mapper.choose_eq_error_iff.1 h
    exact iff_of_true ⟨0, fun _ _ => rfl⟩ missing

/-- **Behind a parser it raises where the parser matches**, if an index is not below the arity. -/
theorem raises_mapped_asFallible_iff (hp : p.FitsAt rules c) (hn : p.arity = some n) :
    Raises (fun k => (p.mapped (Mapper.select is).asFallible).run (quiet rules) k c) .outOfRange ↔
      Raises (fun k => p.run (quiet rules) k c) .outOfRange ∨
        (∃ v d, Matches rules p c v d) ∧ ∃ i ∈ is, n ≤ i := by
  have missing {v d : Value P} (hv : Ends (reading rules p c) (.ok (some (v, d)))) (i : Nat) :
      v.components.length ≤ i ↔ n ≤ i := by
    have length := (hp.of_ends hv).length_eq hn
    omega
  refine (alike_run_mapper hp _).trans ((ends_bind grows_reading).trans ⟨?_, ?_⟩)
  · rintro (⟨e, he, ⟨⟩⟩ | ⟨m, hm, he⟩)
    · exact .inl (hp.raises_iff.1 he)
    · match m, hm with
      | none, _ => cases ends_pure_iff.1 he
      | some (v, d), hm =>
        obtain ⟨i, hi, hle⟩ := raises_runMapper_asFallible_iff.1 he
        exact .inr ⟨⟨v, d, matches_iff_ends.2 hm⟩, i, hi, (missing hm i).1 hle⟩
  · rintro (he | ⟨⟨v, d, hv⟩, i, hi, hle⟩)
    · exact .inl ⟨_, hp.raises_iff.2 he, rfl⟩
    · have read := matches_iff_ends.1 hv
      exact .inr ⟨_, read, raises_runMapper_asFallible_iff.2 ⟨i, hi, (missing read i).2 hle⟩⟩

end

/-! ## What is admitted -/

/-- What has a written form is titled by it. -/
theorem titled_of_isWritable (h : p.name.isWritable = true) : p.titled = .ok p := if_pos h

section

variable [Labelled P]

/-- **A selection read as fallible**, if it is admitted behind the parser. -/
def Parser.trySelecting (p : Parser P) (is : List Nat) : Except (Error P) (Parser P) :=
  Mapper.select? is >>= p.tryMap

/-- **A selection with an index that is not there is refused**, and it is said what it requires. -/
theorem exists_selecting_eq_error (hn : p.arity = some n) (hname : p.name.isWritable = true)
    (hi : ∃ i ∈ is, n ≤ i) : ∃ x, p.declared = some x ∧ p.selecting is =
      .error (.grammar (.tooFew p x (Mapper.select is : Mapper P).requires)) := by
  obtain ⟨i, hmem, hle⟩ := hi
  have hne : is ≠ [] := List.ne_nil_of_mem hmem
  have below : n < ((Mapper.select is : Mapper P).requires : Int) := by
    have bound := Mapper.lt_requires_select (P := P) hmem
    omega
  obtain ⟨x, hx, hc⟩ := exists_checkArity_eq hn (.select is)
  rw [if_pos below, titled_of_isWritable hname] at hc
  refine ⟨x, hx, ?_⟩
  rw [selecting_eq_map hne, map, hc]
  rfl

/-- **Read as fallible it is admitted all the same.** -/
theorem trySelecting_eq_ok (hn : p.arity = some n) (hname : p.name.isWritable = true)
    (hi : is ≠ []) (hn0 : 0 ≤ n) :
    p.trySelecting is = .ok (p.mapped (Mapper.select is).asFallible) := by
  obtain ⟨i, is, rfl⟩ := List.exists_cons_of_ne_nil hi
  have admitted : p.checkArity (Mapper.select (i :: is)).asFallible = .ok () :=
    (checkArity_eq_ok_iff hn).2 hn0
  change p.map (Mapper.select (i :: is)).asFallible = _
  simp only [map, admitted, titled_of_isWritable hname]
  rfl

end

/-- **Only a total selection is checked.**  Behind a parser of known arity it is admitted if all its
indices are below the arity, and is refused with a report of what it requires otherwise; once it is
admitted, nothing is raised wherever the parser's values fit but what the parser itself raises.
Read as fallible it is admitted whatever its indices are, and then an index that is not below the
arity is out of range wherever the parser matches. -/
theorem selections_checked [Primitive P] (hn : p.arity = some n) (hname : p.name.isWritable = true)
    (hi : is ≠ []) :
    ((∃ q, p.selecting is = .ok q) ↔ ∀ i ∈ is, (i : Int) < n) ∧
    ((∃ i ∈ is, n ≤ i) → ∃ x, p.declared = some x ∧ p.selecting is =
      .error (.grammar (.tooFew p x (Mapper.select is : Mapper P).requires))) ∧
    (∀ q, p.selecting is = .ok q → ∀ rules c, p.FitsAt rules c → ∀ e,
      Raises (fun k => q.run (quiet rules) k c) e ↔
        Raises (fun k => p.run (quiet rules) k c) e) ∧
    (0 ≤ n → ∃ q, p.trySelecting is = .ok q ∧ ∀ rules c, p.FitsAt rules c →
      (Raises (fun k => q.run (quiet rules) k c) .outOfRange ↔
        Raises (fun k => p.run (quiet rules) k c) .outOfRange ∨
          (∃ v d, Matches rules p c v d) ∧ ∃ i ∈ is, n ≤ i)) := by
  refine ⟨?_, exists_selecting_eq_error hn hname, fun q hq rules c hp e => ?_, fun hn0 => ?_⟩
  · refine ⟨fun ⟨q, hq⟩ => ((selecting_eq_ok_iff hn hi).1 hq).1, fun inside => ?_⟩
    exact ⟨_, (selecting_eq_ok_iff hn hi).2 ⟨inside, rfl⟩⟩
  · obtain ⟨inside, rfl⟩ := (selecting_eq_ok_iff hn hi).1 hq
    exact raises_select_iff hp hn inside
  · exact ⟨_, trySelecting_eq_ok hn hname hi hn0,
      fun rules c hp => raises_mapped_asFallible_iff hp hn⟩

/-- A token is one component, so a second one cannot be selected from it.  Asked of a fallible
selection, that is found out when the token `a` is matched. -/
theorem second_of_one_token :
    let rules : String → Option (Value Catalogue) := fun _ => none
    let c : Value Catalogue := spot ⟨none, true⟩ [] (characters "a")
    (one : Parser Catalogue).arity = some 1 ∧ (one : Parser Catalogue).name.isWritable = true ∧
    [1] ≠ [] ∧ (one : Parser Catalogue).FitsAt rules c ∧
    (one : Parser Catalogue).selecting [1] = .error (.grammar (.tooFew one (.ofInt 1) 2)) ∧
    ∃ q, (one : Parser Catalogue).trySelecting [1] = .ok q ∧
      Raises (fun k => q.run (quiet rules) k c) .outOfRange := by
  intro rules c
  have count : (one : Parser Catalogue).arity = some 1 := rfl
  have found : Finds rules (one : Parser Catalogue).body [char 'a'] (char 'a') [] := finds_one
  have matched : Matches rules one c (char 'a') (spot ⟨none, true⟩ [char 'a'] []) :=
    found.matches rfl
  have exact : (one : Parser Catalogue).FitsAt rules c := matched.yieldsAt (fits_one rfl)
  have hi : [1] ≠ [] := by decide
  obtain ⟨-, refused, -, admitted⟩ := selections_checked count rfl hi
  obtain ⟨x, hx, error⟩ := refused ⟨1, List.mem_singleton_self 1, by decide⟩
  cases hx
  obtain ⟨q, hq, raises⟩ := admitted (by decide)
  refine ⟨count, rfl, hi, exact, error, q, hq, (raises rules c exact).2 (.inr ?_)⟩
  exact ⟨⟨_, _, matched⟩, 1, List.mem_singleton_self 1, by decide⟩

/-- **It matters how a selection is put behind a parser.**  Nothing can be selected from a parser
that matches everywhere without components and raises nothing.  A selection of the first one is
refused; read as fallible it is admitted, and out of range at every cursor. -/
theorem first_of_no_components :
    (succeed : Parser Catalogue).arity = some 0 ∧
    (∀ rules c, (succeed : Parser Catalogue).FitsAt rules c ∧
      ∀ e, ¬Raises (fun k => (succeed : Parser Catalogue).run (quiet rules) k c) e) ∧
    (∀ q, (succeed : Parser Catalogue).selecting [0] ≠ .ok q) ∧
    ∃ q, (succeed : Parser Catalogue).trySelecting [0] = .ok q ∧
      ∀ rules c, Raises (fun k => q.run (quiet rules) k c) .outOfRange := by
  have count : (succeed : Parser Catalogue).arity = some 0 := rfl
  have hne : [0] ≠ [] := by decide
  have matched (rules : String → Option (Value Catalogue)) (c : Value Catalogue) :
      Matches rules succeed c (.composite [] none) c := matches_of_body (comes_pure _)
  have exact (rules : String → Option (Value Catalogue)) (c : Value Catalogue) :
      (succeed : Parser Catalogue).FitsAt rules c := (matched rules c).yieldsAt fits_zero
  refine ⟨count, fun rules c => ⟨exact rules c, fun e he => ?_⟩, fun q hq => ?_, _,
    trySelecting_eq_ok count rfl hne (Int.le_refl 0), fun rules c => ?_⟩
  · obtain ⟨k, hk⟩ := matched rules c
    cases he.unique (ends_ok_iff.2 hk)
  · have inside := ((selecting_eq_ok_iff count hne).1 hq).1 0 (List.mem_singleton_self 0)
    contradiction
  · refine (raises_mapped_asFallible_iff (exact rules c) count).2 (.inr ?_)
    exact ⟨⟨_, _, matched rules c⟩, 0, List.mem_singleton_self 0, Int.le_refl 0⟩

end ParserAlgebra
