import ParserAlgebra.Call

/-!
# Call/Congruence — relations between runs that calling respects

    i ~ j on every call   ⟹   p.body under i  ~  p.body under j

What a callable does is put together from calls, by returning, raising, taking hold of values and
composing.  So a relation between runs that respects these five (`Congruence`) relates everything a
callable does as soon as it relates the calls it makes.  The two runs may number their objects from
different supplies.

Nothing is said about the knot that `call` ties, nor about the log: these are where the relations of
interest differ from equality.
-/

namespace ParserAlgebra

variable {σ τ P α β : Type} [Supply σ] [Supply τ]

namespace Run

/-- Taking hold of some values is taking hold of each in turn. -/
theorem ownAll_cons (v : Value P) (vs : List (Value P)) :
    (ownAll (v :: vs) : Run σ P _) = (do return (← own v) :: (← ownAll vs)) := by
  apply Run.ext
  funext s
  simp only [ownAll]
  rw [Value.numberedAll]
  rfl

theorem ownAll_nil : (ownAll [] : Run σ P (List (Value P))) = pure [] := by
  apply Run.ext
  funext s
  simp only [ownAll]
  rw [Value.numberedAll]
  rfl

end Run

/-- **A relation between runs that composition respects**, along with what runs are composed of. -/
structure Congruence (σ τ P : Type) [Supply σ] [Supply τ] where
  Rel : {α : Type} → Run σ P α → Run τ P α → Prop
  returning : ∀ {α : Type} (a : α), Rel (pure a : Run σ P α) (pure a)
  raise : ∀ {α : Type} (e : Error P), Rel (Run.raise e : Run σ P α) (Run.raise e)
  exhaust : ∀ {α : Type}, Rel (Run.exhaust : Run σ P α) Run.exhaust
  own : ∀ v : Value P, Rel (Run.own v : Run σ P _) (Run.own v)
  bind : ∀ {α β : Type} {r : Run σ P α} {t : Run τ P α} {f : α → Run σ P β} {g : α → Run τ P β},
    Rel r t → (∀ a, Rel (f a) (g a)) → Rel (r >>= f) (t >>= g)

namespace Congruence

variable (C : Congruence σ τ P)

/-- Both ways of making calls are related on every call. -/
def Calls (i : Invoke σ P) (j : Invoke τ P) : Prop := ∀ f args, C.Rel (i f args) (j f args)

/-! ## What makes no calls -/

theorem ofExcept (r : Except (Error P) α) :
    C.Rel (Run.ofExcept r : Run σ P α) (Run.ofExcept r) := by
  cases r with
  | ok a => exact C.returning a
  | error e => exact C.raise e

theorem ownAll (vs : List (Value P)) : C.Rel (Run.ownAll vs : Run σ P _) (Run.ownAll vs) := by
  induction vs with
  | nil =>
    rw [Run.ownAll_nil, Run.ownAll_nil]
    exact C.returning []
  | cons v vs ih =>
    rw [Run.ownAll_cons, Run.ownAll_cons]
    exact C.bind (C.own v) fun _ => C.bind ih fun _ => C.returning _

theorem readMatch (result : Value P) :
    C.Rel (result.readMatch : Run σ P _) result.readMatch := by
  unfold Value.readMatch
  split
  · exact C.bind (C.ofExcept _) fun _ => C.bind (C.ofExcept _) fun _ => C.returning _
  · exact C.returning none

theorem read (x : Value P) : C.Rel (x.read : Run σ P _) x.read :=
  C.bind (C.ofExcept _) fun xs => C.ownAll xs

theorem readReversed (x : Value P) : C.Rel (x.readReversed : Run σ P _) x.readReversed :=
  C.bind (C.ofExcept _) fun xs => C.ownAll xs

theorem readItem (i : Nat) (x : Value P) : C.Rel (x.readItem i : Run σ P _) (x.readItem i) :=
  C.bind (C.ofExcept _) fun y => C.own y

theorem foldlM {f : β → α → Run σ P β} {g : β → α → Run τ P β}
    (h : ∀ b a, C.Rel (f b a) (g b a)) (xs : List α) (b : β) :
    C.Rel (xs.foldlM f b) (xs.foldlM g b) := by
  induction xs generalizing b with
  | nil => exact C.returning b
  | cons x xs ih =>
    simp only [List.foldlM_cons]
    exact C.bind (h b x) fun c => ih c

/-! ## Mappers and actions -/

section

variable {C} {i : Invoke σ P} {j : Invoke τ P} (h : C.Calls i j)

include h

theorem invokeWith (f : Value P) (args : List (Value P)) :
    C.Rel (f.invokeWith i args) (f.invokeWith j args) := by
  cases f with
  | callable f _ => exact h f args
  | _ => exact C.raise .mistyped

theorem follow (d : Conduct P) : C.Rel (d.follow i) (d.follow j) := by
  induction d with
  | answers x => exact C.returning x
  | raises e => exact C.raise e
  | calls f args resume ih =>
    exact C.bind (C.ownAll args) fun args => C.bind (invokeWith h f args) fun r => ih r

theorem mapper (m : Mapper P) (args : List (Value P)) :
    C.Rel (m.apply i args) (m.apply j args) := by
  cases m with
  | total f _ => exact h f args
  | fallible f _ => exact h f args
  | select _ => exact C.ofExcept _
  | filter f => exact C.bind (h f args) fun _ => C.returning _

theorem collectWith (collection : Value P) (args : List (Value P)) :
    C.Rel (Action.collectWith i collection args) (Action.collectWith j collection args) := by
  unfold Action.collectWith
  split
  · exact C.raise _
  · exact C.bind (C.ofExcept _) fun _ => C.bind (C.own _) fun _ => invokeWith h collection _

theorem stepLeftWith (acc step : Value P) :
    C.Rel (Action.stepLeftWith i acc step) (Action.stepLeftWith j acc step) :=
  C.bind (C.readItem 0 step) fun f => C.bind (C.readItem 1 step) fun _ => invokeWith h f _

theorem stepRightWith (step acc : Value P) :
    C.Rel (Action.stepRightWith i step acc) (Action.stepRightWith j step acc) :=
  C.bind (C.readItem 1 step) fun f => C.bind (C.readItem 0 step) fun _ => invokeWith h f _

/-- An action looks up rules and never the debug switch, so the contexts may differ in that. -/
theorem action [Primitive P] {ctx ctx' : Context P} (hr : ctx.rules = ctx'.rules) (a : Action P)
    (args : List (Value P)) : C.Rel (a.apply i ctx args) (a.apply j ctx' args) := by
  unfold Action.apply
  rw [hr]
  split
  case h_1 => exact follow h _
  case h_3 => exact h _ _
  case h_6 => exact C.bind (C.ofExcept _) fun _ => C.returning _
  case h_5 => exact C.bind (C.ofExcept _) fun _ => C.returning _
  case h_7 =>
    split
    · exact invokeWith h _ _
    · exact C.raise _
  case h_10 => exact C.bind (C.ofExcept _) fun _ => C.returning _
  case h_12 => exact collectWith h _ _
  case h_13 => exact C.bind (C.read _) fun xs => C.foldlM (fun _ _ => h _ _) xs _
  case h_14 => exact C.bind (C.readReversed _) fun xs => C.foldlM (fun _ _ => h _ _) xs _
  case h_15 => exact stepLeftWith h _ _
  case h_16 => exact stepRightWith h _ _
  all_goals first | exact C.returning _ | exact C.ofExcept _ | exact C.raise _

end

/-! ## Parsers -/

section

variable {C} {run : Parser P → Value P → Run σ P (Value P)}
  {run' : Parser P → Value P → Run τ P (Value P)} (h : ∀ p c, C.Rel (run p c) (run' p c))

include h

theorem runAll (ps : List (Parser P)) (c : Value P) :
    C.Rel (Body.runAll run ps c) (Body.runAll run' ps c) := by
  induction ps generalizing c with
  | nil => exact C.returning _
  | cons p ps ih =>
    unfold Body.runAll
    refine C.bind (h p c) fun r => C.bind (C.readMatch r) fun m => ?_
    cases m with
    | none => exact C.returning none
    | some vd =>
      refine C.bind (ih vd.2) fun m => ?_
      cases m <;> exact C.returning _

theorem runFirst (ps : List (Parser P)) (c : Value P) :
    C.Rel (Body.runFirst run ps c) (Body.runFirst run' ps c) := by
  induction ps with
  | nil => exact C.returning _
  | cons p ps ih =>
    unfold Body.runFirst
    refine C.bind (h p c) fun r => ?_
    split
    · exact C.returning r
    · exact ih

theorem runMany (p : Parser P) (rounds : Nat) (c : Value P) :
    C.Rel (Body.runMany run p rounds c) (Body.runMany run' p rounds c) := by
  induction rounds generalizing c with
  | zero => exact C.exhaust
  | succ rounds ih =>
    unfold Body.runMany
    refine C.bind (h p c) fun r => C.bind (C.readMatch r) fun m => ?_
    cases m with
    | none => exact C.returning _
    | some vd => exact C.bind (ih vd.2) fun _ => C.returning _

end

section

variable {C} {i : Invoke σ P} {j : Invoke τ P} (h : C.Calls i j)

include h

theorem runMapper (m : Mapper P) (result : Value P) :
    C.Rel (Body.runMapper i m result) (Body.runMapper j m result) := by
  refine C.bind (C.ofExcept _) fun v => C.bind (mapper h m v.components) fun w => ?_
  split
  · split
    · exact C.bind (C.ofExcept _) fun _ => C.returning _
    · exact C.returning _
    · exact C.returning _
    · exact C.bind (C.ofExcept _) fun _ => C.raise _
  · exact C.bind (C.ofExcept _) fun _ => C.returning _

/-- **What a parser does respects the relation.**  The rounds of a repetition are left open, since
fuel is the one thing in which two runs of one parser may differ. -/
theorem body {rounds rounds' : Nat}
    (hr : ∀ p c, C.Rel (Body.runMany (fun p c => i (.parser p) [c]) p rounds c)
      (Body.runMany (fun p c => j (.parser p) [c]) p rounds' c))
    (b : Body P) (c : Value P) : C.Rel (b.apply i rounds c) (b.apply j rounds' c) := by
  have hp : ∀ p d, C.Rel (i (.parser p) [d]) (j (.parser p) [d]) := fun p d => h (.parser p) [d]
  cases b with
  | succeed => exact C.returning _
  | fail => exact C.returning _
  | one => exact C.ofExcept _
  | endOfInput => exact C.ofExcept _
  | optional p =>
    refine C.bind (hp p c) fun r => C.bind (C.readMatch r) fun m => ?_
    cases m <;> exact C.returning _
  | sequence ps =>
    refine C.bind (runAll hp ps c) fun m => ?_
    cases m <;> exact C.returning _
  | alternative ps => exact runFirst hp ps c
  | repeat0 p f =>
    exact C.bind (hr p c) fun _ => C.bind (C.own _) fun _ => C.bind (h f _) fun _ => C.returning _
  | repeat1 p f =>
    refine C.bind (hp p c) fun r => C.bind (C.readMatch r) fun m => ?_
    cases m with
    | none => exact C.returning _
    | some vd =>
      exact C.bind (hr p vd.2) fun _ => C.bind (C.own _) fun _ => C.bind (h f _) fun _ =>
        C.returning _
  | map p m =>
    refine C.bind (hp p c) fun r => ?_
    split
    · exact runMapper h m r
    · exact C.returning _
  | raw f => exact invokeWith h f [c]

end

end Congruence

end ParserAlgebra
