import Mathlib.Data.List.TakeWhile
import ParserAlgebra.Proofs.Ensures
import ParserAlgebra.Proofs.Log.Watch

/-!
# Proofs/Log/Shows — a run with a log shows the invocations

    call   (log on)    σ → ⟨lines, outcome, σ⟩
    watch              σ × invocations → ⟨[], outcome, σ × invocations⟩

A run with a log hands over the lines of the invocations that the watched run adds, and ends alike —
as long as every line can be written.  One that cannot be written is left out by a lenient handler,
and the run goes on; with a strict one the run ends there, and the lines in front of it are in the
log.  `Shows` says so for either handler, and is kept when runs are composed.

A line that closes a match shows a value, so what was matched must have one.  This is asked of the
functions that parsers are made of (`Invocation.Tame`), and of all other parsers it follows
(`Invocation.Sane`).
-/

namespace ParserAlgebra

variable {σ P α β : Type}

open Invocation

/-! ## What a handler makes of the lines -/

namespace Handler

/-- Whether a run gets past the lines: all of them can be written, or some may be left out. -/
def passes (handler : Handler) (ls : List (LogEntry P)) : Bool :=
  match handler with
  | .lenient => true
  | .strict => ls.all LogEntry.isWritable

/-- **What is written of the lines**: those that can be written, or those in front of the first that
cannot. -/
def written (handler : Handler) (ls : List (LogEntry P)) : List (LogEntry P) :=
  match handler with
  | .lenient => ls.filter LogEntry.isWritable
  | .strict => ls.takeWhile LogEntry.isWritable

theorem passes_append (handler : Handler) (ls ms : List (LogEntry P)) :
    handler.passes (ls ++ ms) = (handler.passes ls && handler.passes ms) := by
  cases handler with
  | lenient => rfl
  | strict => exact List.all_append

end Handler

theorem takeWhile_append_of_not_all {p : α → Bool} {xs : List α} (h : xs.all p = false)
    (ys : List α) : (xs ++ ys).takeWhile p = xs.takeWhile p := by
  induction xs with
  | nil => contradiction
  | cons x xs ih =>
    cases hx : p x with
    | false => rw [List.cons_append, List.takeWhile_cons, List.takeWhile_cons, hx]; rfl
    | true =>
      rw [List.all_cons, hx, Bool.true_and] at h
      rw [List.cons_append, List.takeWhile_cons, List.takeWhile_cons, hx, ih h]

namespace Handler

/-- Behind lines that the run gets past, further ones are written. -/
theorem written_append_of_passes {handler : Handler} {ls : List (LogEntry P)}
    (h : handler.passes ls = true) (ms : List (LogEntry P)) :
    handler.written (ls ++ ms) = handler.written ls ++ handler.written ms := by
  cases handler with
  | lenient => exact List.filter_append ls ms
  | strict =>
    have all := List.all_eq_true.1 h
    simp only [written]
    rw [List.takeWhile_append_of_pos all, List.takeWhile_eq_self_iff.2 all]

/-- Behind a line that ends the run, none is. -/
theorem written_append_of_not_passes {handler : Handler} {ls : List (LogEntry P)}
    (h : handler.passes ls = false) (ms : List (LogEntry P)) :
    handler.written (ls ++ ms) = handler.written ls := by
  cases handler with
  | lenient => contradiction
  | strict => exact takeWhile_append_of_not_all h ms

end Handler

/-! ## Showing lines -/

/-- **The run shows lines, and then ends as it would without them**, unless it does not get past
them. -/
structure Shows (handler : Handler) (e : Ending σ P α) (ls : List (LogEntry P))
    (o : Except (Halt (Error P)) α) (s : σ) : Prop where
  log : e.log = handler.written ls
  ends : handler.passes ls = true → e.outcome = o ∧ e.supply = s
  cut : handler.passes ls = false → e.outcome = .error (.raised .mistyped)

variable {handler : Handler}

/-- **What is composed shows the lines of both parts.** -/
theorem Shows.bind {r : Run σ P α} {f : α → Run σ P β} {ls ms : List (LogEntry P)} {s s' s'' : σ}
    {a : α} {o : Except (Halt (Error P)) β} (h : Shows handler (r.start s) ls (.ok a) s')
    (hf : Shows handler ((f a).start s') ms o s'') :
    Shows handler ((r >>= f).start s) (ls ++ ms) o s'' := by
  cases hl : handler.passes ls with
  | true =>
    obtain ⟨ho, hs⟩ := h.ends hl
    rw [Run.bind_of_ok ho, hs]
    refine ⟨?_, fun ha => ?_, fun ha => ?_⟩
    · rw [Handler.written_append_of_passes hl, h.log, hf.log]
    · rw [Handler.passes_append, hl, Bool.true_and] at ha
      exact hf.ends ha
    · rw [Handler.passes_append, hl, Bool.true_and] at ha
      exact hf.cut ha
  | false =>
    rw [Run.bind_of_error (h.cut hl)]
    refine ⟨?_, fun ha => ?_, fun _ => rfl⟩
    · rw [Handler.written_append_of_not_passes hl, h.log]
    · rw [Handler.passes_append, hl, Bool.false_and] at ha
      contradiction

/-- What halted shows the lines it had shown by then. -/
theorem Shows.bind_error {r : Run σ P α} {f : α → Run σ P β} {ls : List (LogEntry P)} {s s' : σ}
    {e : Halt (Error P)} (h : Shows handler (r.start s) ls (.error e) s') :
    Shows handler ((r >>= f).start s) ls (.error e) s' := by
  cases hl : handler.passes ls with
  | true =>
    obtain ⟨ho, hs⟩ := h.ends hl
    rw [Run.bind_of_error ho]
    exact ⟨h.log, fun _ => ⟨rfl, hs⟩, fun ha => absurd (hl.symm.trans ha) (by simp)⟩
  | false =>
    rw [Run.bind_of_error (h.cut hl)]
    exact ⟨h.log, fun ha => absurd (hl.symm.trans ha) (by simp), fun _ => rfl⟩

/-- What a parser should return stays so when it is numbered. -/
theorem Invocation.Proper.numbered [Supply σ] {r : Value P} (h : Proper r) (s : σ) :
    Proper (r.numbered s).1 := by
  obtain hf | ⟨v, n, i, rfl⟩ := h
  · exact .inl ((Value.isTruthy_numbered r s).trans hf)
  · exact .inr (Value.exists_numbered_success v n i s)

/-- **Whatever the run returns satisfies `Q`, if all invocations that it adds are sane.** -/
def Hands (t : Run (Watched σ P) P α) (Q : α → Prop) : Prop :=
  ∀ s seen, ∃ o s' ts, t.start ⟨s, seen⟩ = ⟨[], o, ⟨s', seen ++ ts⟩⟩ ∧
    ((∀ i ∈ ts, i.Sane) → ∀ a, o = .ok a → Q a)

theorem Hands.mono {t : Run (Watched σ P) P α} {Q R : α → Prop} (h : Hands t Q)
    (hQ : ∀ a, Q a → R a) : Hands t R := by
  intro s seen
  obtain ⟨o, s', ts, ht, ho⟩ := h s seen
  exact ⟨o, s', ts, ht, fun hs a ha => hQ a (ho hs a ha)⟩

theorem Hands.bind {t : Run (Watched σ P) P α} {g : α → Run (Watched σ P) P β} {Q : α → Prop}
    {R : β → Prop} (h : Hands t Q) (hg : ∀ a, Hands (g a) fun b => Q a → R b) :
    Hands (t >>= g) R := by
  intro s seen
  obtain ⟨o, s', ts, ht, ho⟩ := h s seen
  match o with
  | .error e => exact ⟨.error e, s', ts, start_bind_error ht g, fun _ a ha => by contradiction⟩
  | .ok a =>
    obtain ⟨o', s'', us, hga, ho'⟩ := hg a s' (seen ++ ts)
    refine ⟨o', s'', ts ++ us, start_bind_ok ht hga, fun hs b hb => ?_⟩
    refine ho' (fun i hi => hs i (List.mem_append_right ts hi)) b hb (ho ?_ a rfl)
    exact fun i hi => hs i (List.mem_append_left us hi)

end ParserAlgebra
