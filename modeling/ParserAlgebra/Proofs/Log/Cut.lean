import ParserAlgebra.Proofs.Log.Shows

/-!
# Proofs/Log/Cut — a tree of invocations, cut at a line that cannot be written

    p at c                         p at c
    ├─ q at c                      ├─ q at c
    ├─ r at d      ⟶               └─ r at d
    │  └─ s at d
    └─ t at e

If a line has no written form the run ends there.  The invocations were the same up to then: what
stands behind the line has not been called, and what stands around it has not returned.  So the
lines in front of it are those of a smaller tree, and it is well nested if the whole tree is.
-/

namespace ParserAlgebra.Invocation

variable {P : Type}

open LogEntry

mutual

/-- **What there has been of an invocation** when its first line without a written form comes: all
of it, if there is no such line, and nothing, if it is the one in front. -/
def cut : Invocation P → List (Invocation P)
  | mk p c inner result =>
    if (trying p.name c).isWritable then
      [mk p c (cutAll inner)
        (if (linesAll inner ++ ending p result).all isWritable then result else none)]
    else []

/-- The same, of invocations one after the other. -/
def cutAll : List (Invocation P) → List (Invocation P)
  | [] => []
  | t :: ts => t.cut ++ if t.lines.all isWritable then cutAll ts else []

end

/-! ## Its lines -/

theorem all_lines {p : Parser P} {c : Value P} {inner : List (Invocation P)}
    {result : Option (Value P)} : (mk p c inner result).lines.all isWritable =
      ((trying p.name c).isWritable && (linesAll inner ++ ending p result).all isWritable) := by
  rw [lines, List.all_cons]

/-- There is one line behind an invocation at most, so it is there or it is not. -/
theorem takeWhile_ending (p : Parser P) (result : Option (Value P)) :
    (ending p result).takeWhile isWritable =
      ending p (if (ending p result).all isWritable then result else none) := by
  have single : ∀ es : List (LogEntry P), es.length ≤ 1 → es.all isWritable = false →
      es.takeWhile isWritable = [] := by
    rintro (_ | ⟨e, _ | ⟨_, _⟩⟩) hl ha
    · rfl
    · rw [List.takeWhile_cons, if_neg (by simpa using ha)]
    · simp at hl
  have short : (ending p result).length ≤ 1 := by
    unfold ending closing
    split
    · split
      · split <;> simp
      · simp
    · simp
  cases ha : (ending p result).all isWritable with
  | true => rw [if_pos rfl, List.takeWhile_eq_self_iff.2 (List.all_eq_true.1 ha)]
  | false =>
    rw [if_neg (by simp), single _ short ha]
    rfl

mutual

/-- **Cutting leaves the lines in front of the first that has no written form.** -/
theorem linesAll_cut (t : Invocation P) : linesAll t.cut = t.lines.takeWhile isWritable := by
  match t with
  | .mk p c inner result =>
    have inside := linesAll_cutAll inner
    rw [cut, lines, List.takeWhile_cons]
    split
    · rw [linesAll_singleton, lines, inside, List.all_append]
      cases ha : (linesAll inner).all isWritable with
      | true =>
        rw [List.takeWhile_append_of_pos (List.all_eq_true.1 ha), takeWhile_ending,
          List.takeWhile_eq_self_iff.2 (List.all_eq_true.1 ha), Bool.true_and]
      | false =>
        rw [takeWhile_append_of_not_all ha, Bool.false_and, if_neg (by simp), ending,
          List.append_nil]
    · rfl

/-- The same, of invocations one after the other. -/
theorem linesAll_cutAll (ts : List (Invocation P)) :
    linesAll (cutAll ts) = (linesAll ts).takeWhile isWritable := by
  match ts with
  | [] => rfl
  | t :: ts =>
    have first := linesAll_cut t
    have others := linesAll_cutAll ts
    rw [cutAll, linesAll_append, linesAll, first]
    cases ha : t.lines.all isWritable with
    | true =>
      rw [if_pos rfl, others, List.takeWhile_append_of_pos (List.all_eq_true.1 ha),
        List.takeWhile_eq_self_iff.2 (List.all_eq_true.1 ha)]
    | false =>
      rw [if_neg (by simp), takeWhile_append_of_not_all ha, linesAll, List.append_nil]

end

mutual

/-- Where all lines have a written form, nothing is cut off. -/
theorem cut_of_all (t : Invocation P) (h : t.lines.all isWritable = true) : t.cut = [t] := by
  match t with
  | .mk p c inner result =>
    rw [all_lines, Bool.and_eq_true] at h
    obtain ⟨hn, ha⟩ := h
    rw [cut, if_pos hn, if_pos ha]
    rw [List.all_append, Bool.and_eq_true] at ha
    rw [cutAll_of_all inner ha.1]

theorem cutAll_of_all (ts : List (Invocation P)) (h : (linesAll ts).all isWritable = true) :
    cutAll ts = ts := by
  match ts with
  | [] => rfl
  | t :: ts =>
    rw [linesAll, List.all_append, Bool.and_eq_true] at h
    rw [cutAll, if_pos h.1, cut_of_all t h.1, cutAll_of_all ts h.2, List.singleton_append]

end

/-! ## Its nesting -/

/-- What holds of each part of an invocation holds of what is left of invocations. -/
theorem forall_mem_cutAll {Q : Invocation P → Prop} {ts : List (Invocation P)}
    (h : ∀ t ∈ ts, ∀ i ∈ t.cut, Q i) : ∀ i ∈ cutAll ts, Q i := by
  induction ts with
  | nil => simp [cutAll]
  | cons t ts ih =>
    obtain ⟨ht, hts⟩ := List.forall_mem_cons.1 h
    intro i hi
    rw [cutAll] at hi
    obtain hi | hi := List.mem_append.1 hi
    · exact ht i hi
    · split at hi
      · exact ih hts i hi
      · contradiction

/-- Only what there was can be left. -/
theorem mem_cut {p : Parser P} {c : Value P} {inner : List (Invocation P)}
    {result : Option (Value P)} {i : Invocation P} (h : i ∈ (mk p c inner result).cut) :
    i = mk p c (cutAll inner)
      (if (linesAll inner ++ ending p result).all isWritable then result else none) := by
  rw [cut] at h
  split at h
  · exact List.mem_singleton.1 h
  · contradiction

theorem Sane.cut {t : Invocation P} (h : Sane t) : ∀ i ∈ t.cut, Sane i := by
  induction h with
  | @mk p c inner result h hr ih =>
    intro i hi
    rw [mem_cut hi]
    refine .mk (forall_mem_cutAll ih) fun r hres => hr r ?_
    split at hres
    · exact hres
    · contradiction

/-- What is left of something that returned is all of it, or something that has not. -/
theorem Closed.nested_cut {t : Invocation P} (h : Closed t) : ∀ i ∈ t.cut, Nested i := by
  induction h with
  | @mk p c inner r h ih =>
    intro i hi
    rw [mem_cut hi]
    split
    · rename_i ha
      rw [List.all_append, Bool.and_eq_true] at ha
      rw [cutAll_of_all inner ha.1]
      exact .returned (.mk h)
    · exact .escaped (forall_mem_cutAll ih)

theorem Nested.cut {t : Invocation P} (h : Nested t) : ∀ i ∈ t.cut, Nested i := by
  induction h with
  | returned h => exact h.nested_cut
  | @escaped p c inner h ih =>
    intro i hi
    rw [mem_cut hi, ite_self]
    exact .escaped (forall_mem_cutAll ih)

end ParserAlgebra.Invocation
