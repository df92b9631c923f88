import ParserAlgebra.Cursor

/-!
# Proofs/Onward — further on in one stream

    c ──n tokens──▸ d        same stream,   place of d = place of c + n

A cursor that a parser goes on from is on the stream that it was given, some tokens further on.  How
many is all there is to say, so `Onward n c d` composes by adding up (`Onward.trans`), and a cursor
that has an index keeps being inside its stream (`Onward.inside`).
-/

namespace ParserAlgebra.Cursor

variable {V : Type}

/-- **`n` tokens further on**: in the same stream, held in the same way.  Both places are
indices. -/
structure Onward (n : Nat) (c d : Cursor V) : Prop where
  origin : d.origin = c.origin
  tokens : d.tokens = c.tokens
  checked : d.isChecked = c.isChecked
  place : ∃ i : Int, c.place = .int i ∧ d.place = .int (i + n)

/-- The cursor has a position and not just a place, and that is an index. -/
def IsIndexed : Cursor V → Prop
  | indexed _ _ _ _ => True
  | _ => False

theorem IsIndexed.exists_place {c : Cursor V} (h : c.IsIndexed) : ∃ i : Int, c.place = .int i := by
  cases c with
  | indexed origin passed rest asTruth => exact ⟨passed.length, rfl⟩
  | _ => exact h.elim

theorem Readable.exists_place {c : Cursor V} (h : c.Readable) : ∃ i : Int, c.place = .int i := by
  cases c with
  | indexed origin passed rest asTruth => exact ⟨passed.length, rfl⟩
  | linked origin tokens place => exact ⟨place, rfl⟩
  | fractional origin tokens place checked => exact h.elim

/-! ## No token, one token, many -/

theorem onward_zero {c : Cursor V} (h : ∃ i : Int, c.place = .int i) : Onward 0 c c where
  origin := rfl
  tokens := rfl
  checked := rfl
  place := by
    obtain ⟨i, hi⟩ := h
    exact ⟨i, hi, by simpa using hi⟩

/-- Moving on keeps how the cursor is held. -/
theorem isChecked_advance {c d : Cursor V} (h : c.advance = .ok d) {i : Int}
    (hi : c.place = .int i) : d.isChecked = c.isChecked := by
  cases c with
  | indexed origin passed rest asTruth =>
    cases rest with
    | nil => contradiction
    | cons x rest =>
      cases h
      rfl
  | linked origin tokens place =>
    cases h
    rfl
  | fractional origin tokens place checked => contradiction

theorem onward_advance {c d : Cursor V} (h : c.advance = .ok d)
    (hc : ∃ i : Int, c.place = .int i) : Onward 1 c d := by
  obtain ⟨i, hi⟩ := hc
  obtain ⟨htokens, horigin⟩ := tokens_advance h
  exact ⟨horigin, htokens, isChecked_advance h hi, i, hi, place_advance h hi⟩

theorem Onward.trans {m n : Nat} {c d e : Cursor V} (h : Onward m c d) (k : Onward n d e) :
    Onward (m + n) c e where
  origin := k.origin.trans h.origin
  tokens := k.tokens.trans h.tokens
  checked := k.checked.trans h.checked
  place := by
    obtain ⟨i, hc, hd⟩ := h.place
    obtain ⟨j, hd', he⟩ := k.place
    obtain rfl : i + m = j := Number.int.inj (hd.symm.trans hd')
    exact ⟨i, hc, by rw [he, Int.add_assoc, Int.natCast_add]⟩

/-! ## Inside the stream -/

/-- What is further on than an index is an index. -/
theorem Onward.isIndexed {n : Nat} {c d : Cursor V} (h : Onward n c d) (hc : c.IsIndexed) :
    d.IsIndexed := by
  obtain ⟨i, _, hd⟩ := h.place
  cases c with
  | indexed =>
    cases d with
    | indexed => exact trivial
    | linked => exact absurd h.checked Bool.false_ne_true
    | fractional => simp [Cursor.place] at hd
  | _ => exact hc.elim

/-- **An index stays inside its stream.** -/
theorem IsIndexed.inside {c : Cursor V} (h : c.IsIndexed) : c.place.inside c.size = true := by
  cases c with
  | indexed origin passed rest asTruth => exact inside_size origin passed rest asTruth
  | _ => exact h.elim

end ParserAlgebra.Cursor
