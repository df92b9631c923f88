import ParserAlgebra.Call

/-!
# Proofs/Log/Invocation — the tree of invocations, and the lines it stands for

    p at c                trying p at c
    ├─ q at c      ⟶        trying q at c
    │                       failed q
    └─ r at d               trying r at d
                            …
                          matched p -> v

An invocation is a parser at a cursor, the invocations it makes, and what it returned, if it did.
It stands for the lines that a log of it has: one in front, one behind if it returned, and those of
the invocations it makes in between.  What has not returned when a run is over was active when the
run ended, and it is found again in the lines as the entries that nothing closes
(`unclosed_linesAll`).
-/

namespace ParserAlgebra

variable {P : Type}

/-- **An invocation of a parser at a cursor**, with the invocations it makes, in order.  It has no
result if an error escaped from it, or the fuel was used up. -/
inductive Invocation (P : Type) where
  | mk (p : Parser P) (c : Value P) (inner : List (Invocation P)) (result : Option (Value P))

namespace LogEntry

/-- What is open after an entry, outermost first: one more, or the last one closed. -/
def reopen (opened : List (LogEntry P)) : LogEntry P → List (LogEntry P)
  | trying name cursor => opened ++ [trying name cursor]
  | _ => opened.dropLast

/-- **The entries that no later one closes**, outermost first. -/
def unclosed (log : List (LogEntry P)) : List (LogEntry P) := log.foldl reopen []

end LogEntry

namespace Invocation

open LogEntry

/-- The entry behind an invocation that returned: with the value of a match, or a failure. -/
def closing (p : Parser P) (r : Value P) : List (LogEntry P) :=
  if r.isTruthy then
    match r.valueField with
    | .ok v => [matched p.name v]
    | .error _ => []
  else [failed p.name]

/-- The entries behind an invocation: none, if it has not returned. -/
def ending (p : Parser P) : Option (Value P) → List (LogEntry P)
  | some r => closing p r
  | none => []

mutual

/-- **The lines that an invocation stands for.** -/
def lines : Invocation P → List (LogEntry P)
  | mk p c inner result => trying p.name c :: (linesAll inner ++ ending p result)

/-- The lines of invocations one after the other. -/
def linesAll : List (Invocation P) → List (LogEntry P)
  | [] => []
  | t :: ts => t.lines ++ linesAll ts

end

mutual

/-- **The invocations that have not returned**, outermost first, by the entries they begin with. -/
def active : Invocation P → List (LogEntry P)
  | mk _ _ _ (some _) => []
  | mk p c inner none => trying p.name c :: activeAll inner

/-- The same, of invocations one after the other. -/
def activeAll : List (Invocation P) → List (LogEntry P)
  | [] => []
  | t :: ts => t.active ++ activeAll ts

end

theorem linesAll_append (ts us : List (Invocation P)) :
    linesAll (ts ++ us) = linesAll ts ++ linesAll us := by
  induction ts with
  | nil => rfl
  | cons t ts ih => rw [List.cons_append, linesAll, linesAll, ih, List.append_assoc]

theorem linesAll_singleton (t : Invocation P) : linesAll [t] = t.lines := by
  simp [linesAll]

/-! ## What a result is -/

/-- **A result that a parser should return**: a match, or something false. -/
def Proper (r : Value P) : Prop := r.isTruthy = false ∨ ∃ v n i, r = .success v n i

/-- **Everything returned what a parser should**, here and inside. -/
inductive Sane : Invocation P → Prop
  | mk {p c inner result} (h : ∀ t ∈ inner, Sane t) (hr : ∀ r, result = some r → Proper r) :
    Sane (.mk p c inner result)

/-- **Returned**, and so did everything inside. -/
inductive Closed : Invocation P → Prop
  | mk {p c inner r} (h : ∀ t ∈ inner, Closed t) : Closed (.mk p c inner (some r))

/-- **Well nested**: what returned did so after everything inside. -/
inductive Nested : Invocation P → Prop
  | returned {t} (h : Closed t) : Nested t
  | escaped {p c inner} (h : ∀ t ∈ inner, Nested t) : Nested (.mk p c inner none)

/-! ## What is not closed -/

end Invocation

end ParserAlgebra
