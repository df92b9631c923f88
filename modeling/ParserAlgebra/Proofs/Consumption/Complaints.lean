import ParserAlgebra.Proofs.Holds

/-!
# Proofs/Consumption/Complaints — where the errors of a cursor come from

A cursor complains about a position outside of its stream, about reading a token at the end, and
about a step past the end.  Nothing that the library does makes it complain: whatever is called with
whatever arguments, a complaint can only be one that a function of the host raised of its own accord
(`hosted_call`).

There are two places where a cursor is asked for a token or for the next cursor at all, and both are
in `takeToken`, behind the question whether it is at the end.
-/

namespace ParserAlgebra

variable {σ P α β : Type}

/-- **A complaint of a cursor**: a position outside of the stream, no current token, a step past
the end. -/
def Error.IsComplaint (e : Error P) : Prop :=
  ∃ fault : CursorFault, e = .cursor fault ∧ fault.message?.isSome = true

theorem Error.not_isComplaint {e : Error P} (h : ∀ fault, e ≠ .cursor fault) : ¬e.IsComplaint := by
  rintro ⟨fault, rfl, _⟩
  exact h fault rfl

/-- An error that a function of the host may raise, perhaps only after other calls. -/
inductive Conduct.MayRaise (e : Error P) : Conduct P → Prop
  | raises : MayRaise e (.raises e)
  | calls {f args resume x} (h : MayRaise e (resume x)) : MayRaise e (.calls f args resume)

/-- **An error of the host**: some function of it may raise it. -/
def Error.Hosted [Primitive P] (e : Error P) : Prop :=
  ∃ (f : P) (args : List (Value P)), (Primitive.call f args).MayRaise e

/-! ## Computations without complaints -/

/-- **The computation does not end with a complaint.** -/
def Calm (x : Except (Error P) α) : Prop := ∀ e, x = .error e → ¬e.IsComplaint

theorem calm_ok (a : α) : Calm (.ok a : Except (Error P) α) := nofun

theorem calm_error {e : Error P} (h : ∀ fault, e ≠ .cursor fault) :
    Calm (.error e : Except (Error P) α) := by
  rintro _ ⟨⟩
  exact Error.not_isComplaint h

theorem Calm.bind {x : Except (Error P) α} {f : α → Except (Error P) β} (h : Calm x)
    (hf : ∀ a, x = .ok a → Calm (f a)) : Calm (x >>= f) := by
  cases x with
  | ok a => exact hf a rfl
  | error e =>
    rintro _ ⟨⟩
    exact h e rfl

theorem Calm.map {x : Except (Error P) α} (h : Calm x) (f : α → β) : Calm (x.map f) := by
  cases x with
  | ok a => exact calm_ok (f a)
  | error e =>
    rintro _ ⟨⟩
    exact h e rfl

namespace Value

theorem calm_elements (x : Value P) : Calm x.elements := by
  unfold elements
  split
  case h_7 => exact calm_error nofun
  case h_8 => exact calm_error nofun
  all_goals exact calm_ok _

theorem calm_reversed (x : Value P) : Calm x.reversed := by
  rw [reversed_eq]
  exact (calm_elements x).map _

theorem calm_itemOf (xs : List (Value P)) (i : Nat) : Calm (itemOf xs i) := by
  unfold itemOf
  split
  · exact calm_ok _
  · exact calm_error nofun

theorem calm_item (i : Nat) (x : Value P) : Calm (x.item i) := by
  unfold item
  split
  case h_5 => exact calm_error nofun
  case h_6 => exact calm_error nofun
  all_goals exact calm_itemOf _ i

theorem calm_memberOf (cs : CharSet) (x : Value P) : Calm (memberOf cs x) := by
  unfold memberOf
  split
  · exact calm_ok _
  · exact calm_error nofun

theorem calm_shown (x : Value P) : Calm x.shown := by
  unfold shown
  split
  · exact calm_ok _
  · exact calm_error nofun

theorem calm_valueField (x : Value P) : Calm x.valueField := by
  intro e he
  rw [eq_missing_of_valueField he]
  exact Error.not_isComplaint nofun

theorem calm_nextField (x : Value P) : Calm x.nextField := by
  intro e he
  rw [eq_missing_of_nextField he]
  exact Error.not_isComplaint nofun

theorem calm_asCursor (x : Value P) : Calm x.asCursor := by
  unfold asCursor
  split
  · exact calm_ok _
  · exact calm_error nofun
  · exact calm_error nofun

end Value

open Value

theorem calm_choose (indices : List Nat) (xs : List (Value P)) :
    Calm (Mapper.choose indices xs) := by
  rw [Mapper.choose_eq]
  split
  · exact calm_ok _
  · exact calm_error nofun

theorem calm_joinTexts (xs : List (Value P)) : Calm (Action.joinTexts xs) := by
  fun_induction Action.joinTexts xs with
  | case1 => exact calm_ok _
  | case2 s i xs ih => exact ih.map _
  | case3 => exact calm_error nofun

theorem calm_digitsOf (text : String) : Calm (Action.digitsOf (P := P) text) := by
  unfold Action.digitsOf
  split
  · exact calm_ok _
  · exact calm_error nofun

theorem calm_integerOf (sign digits : Value P) : Calm (Action.integerOf sign digits) :=
  (calm_elements digits).bind fun xs _ => (calm_joinTexts xs).bind fun text _ =>
    (calm_digitsOf text).bind fun _ _ => calm_ok _

theorem calm_wordOf (first rest : Value P) : Calm (Action.wordOf first rest) :=
  (calm_elements rest).bind fun xs _ => (calm_joinTexts (first :: xs)).bind fun _ _ => calm_ok _

/-- A cursor that is not at the end, and that has a token, moves on to the next. -/
theorem Cursor.exists_advance {V : Type} {c : Cursor V} {x : V} (h : c.atEnd = false)
    (hx : c.current = .ok x) : ∃ d, c.advance = .ok d := by
  cases c with
  | indexed origin passed rest asTruth =>
    cases rest with
    | nil => contradiction
    | cons y rest => exact ⟨_, rfl⟩
  | linked origin tokens place => exact ⟨_, rfl⟩
  | fractional origin tokens place checked => contradiction

/-- A cursor that is not at the end has a token, or it cannot be read at all. -/
theorem Cursor.message?_of_current {V : Type} {c : Cursor V} {fault : CursorFault}
    (h : c.atEnd = false) (hf : c.current = .error fault) : fault.message? = none := by
  cases c with
  | indexed origin passed rest asTruth =>
    cases rest with
    | nil => contradiction
    | cons y rest =>
      simp only [current, reading] at hf
      split at hf <;> cases hf
      rfl
  | linked origin tokens place =>
    simp only [current] at hf
    split at hf
    · split at hf <;> cases hf
      rfl
    · cases hf
      rfl
  | fractional origin tokens place checked =>
    simp only [current, h, Bool.and_false] at hf
    cases hf
    rfl

/-- **Taking a token never makes the cursor complain**, whatever cursor it is. -/
theorem calm_takeToken (c : Value P) : Calm (Body.takeToken c) := by
  refine (calm_asCursor c).bind fun d _ => ?_
  split
  · exact calm_ok _
  · rename_i h
    have hend : d.atEnd = false := Bool.eq_false_iff.2 h
    cases hx : d.current with
    | error fault =>
      rintro _ ⟨⟩ ⟨fault', hf, hm⟩
      cases hf
      rw [Cursor.message?_of_current hend hx] at hm
      contradiction
    | ok x =>
      obtain ⟨e, he⟩ := Cursor.exists_advance hend hx
      rw [he]
      exact calm_ok _

theorem calm_takeEnd (c : Value P) : Calm (Body.takeEnd c) :=
  (calm_asCursor c).bind fun _ _ => calm_ok _

/-! ## Runs without complaints of their own -/

namespace Run

/-- **Whatever complaint the run raises is one of the host.** -/
def Hosts [Primitive P] (r : Run σ P α) : Prop :=
  ∀ s, r.Holds s (fun _ _ => True) fun e => e.IsComplaint → e.Hosted

variable [Primitive P]

theorem hosts_pure (a : α) : (pure a : Run σ P α).Hosts := fun _ => holds_pure trivial

theorem hosts_ofExcept {x : Except (Error P) α} (h : Calm x) : (ofExcept x : Run σ P α).Hosts :=
  fun _ => holds_ofExcept (fun _ _ => trivial) fun e he hc => absurd hc (h e he)

theorem hosts_mistyped : (raise .mistyped : Run σ P α).Hosts :=
  hosts_ofExcept (x := .error .mistyped) (calm_error nofun)

theorem hosts_own [Supply σ] (v : Value P) : (own v : Run σ P _).Hosts := fun _ => holds_own trivial

theorem hosts_ownAll [Supply σ] (vs : List (Value P)) : (ownAll vs : Run σ P _).Hosts :=
  fun _ => ⟨fun _ _ _ => trivial, fun _ he => by contradiction⟩

theorem Hosts.bind {r : Run σ P α} {f : α → Run σ P β} (h : r.Hosts) (hf : ∀ a, (f a).Hosts) :
    (r >>= f).Hosts := fun s => (h s).bind fun a s' _ _ => hf a s'

theorem hosts_readMatch (x : Value P) : (x.readMatch : Run σ P _).Hosts := by
  unfold readMatch
  split
  · exact (hosts_ofExcept (calm_valueField x)).bind fun v =>
      (hosts_ofExcept (calm_nextField x)).bind fun n => hosts_pure _
  · exact hosts_pure _

theorem hosts_foldlM {f : β → α → Run σ P β} (h : ∀ b a, (f b a).Hosts) (xs : List α) (b : β) :
    (xs.foldlM f b).Hosts := by
  induction xs generalizing b with
  | nil => exact hosts_pure b
  | cons x xs ih =>
    rw [List.foldlM_cons]
    exact (h b x).bind ih

theorem hosts_readItem [Supply σ] (i : Nat) (x : Value P) : (x.readItem i : Run σ P _).Hosts :=
  (hosts_ofExcept (calm_item i x)).bind fun y => hosts_own y

theorem hosts_read [Supply σ] (x : Value P) : (x.read : Run σ P _).Hosts :=
  (hosts_ofExcept (calm_elements x)).bind fun xs => hosts_ownAll xs

theorem hosts_readReversed [Supply σ] (x : Value P) : (x.readReversed : Run σ P _).Hosts :=
  (hosts_ofExcept (calm_reversed x)).bind fun xs => hosts_ownAll xs

end Run

open Run

/-! ## Mappers and actions -/

section

variable [Primitive P] {invoke : Invoke σ P} (h : ∀ f args, (invoke f args).Hosts)

include h

theorem hosts_invokeWith (f : Value P) (args : List (Value P)) :
    (f.invokeWith invoke args).Hosts := by
  cases f with
  | callable f _ => exact h f args
  | _ => exact hosts_mistyped

theorem hosts_mapper (m : Mapper P) (args : List (Value P)) : (m.apply invoke args).Hosts := by
  cases m with
  | total f _ => exact h f args
  | fallible f _ => exact h f args
  | select indices => exact hosts_ofExcept (calm_choose indices args)
  | filter f => exact (h f args).bind fun _ => hosts_pure _

variable [Supply σ]

/-- What a function of the host raises is one of the host. -/
theorem hosts_follow {d : Conduct P} (hd : ∀ e : Error P, d.MayRaise e → e.Hosted) :
    (d.follow invoke).Hosts := by
  induction d with
  | answers x => exact hosts_pure x
  | raises e => exact fun _ => holds_raise fun _ => hd e .raises
  | calls f args resume ih =>
    exact (hosts_ownAll args).bind fun args => (hosts_invokeWith h f args).bind fun r =>
      ih r fun e he => hd e (.calls he)

theorem hosts_collectWith (collection : Value P) (args : List (Value P)) :
    (Action.collectWith invoke collection args).Hosts := by
  unfold Action.collectWith
  split
  · exact hosts_ofExcept (x := .error .outOfRange) (calm_error nofun)
  · exact (hosts_ofExcept (calm_elements _)).bind fun xs => (hosts_own _).bind fun items =>
      hosts_invokeWith h collection [items]

theorem hosts_action (ctx : Context P) (a : Action P) (args : List (Value P)) :
    (a.apply invoke ctx args).Hosts := by
  unfold Action.apply
  split
  case h_1 => exact hosts_follow h fun e he => ⟨_, _, he⟩
  case h_3 => exact h _ _
  case h_5 => exact (hosts_ofExcept (calm_elements _)).bind fun _ => hosts_pure _
  case h_6 => exact (hosts_ofExcept (calm_shown _)).bind fun _ => hosts_pure _
  case h_7 =>
    split
    · exact hosts_invokeWith h _ _
    · exact hosts_ofExcept (x := .error (.unbound _)) (calm_error nofun)
  case h_10 => exact (hosts_ofExcept (calm_memberOf _ _)).bind fun _ => hosts_pure _
  case h_12 => exact hosts_collectWith h _ _
  case h_13 => exact (hosts_read _).bind fun xs => hosts_foldlM (fun _ _ => h _ _) xs _
  case h_14 => exact (hosts_readReversed _).bind fun xs => hosts_foldlM (fun _ _ => h _ _) xs _
  case h_15 =>
    exact (hosts_readItem 0 _).bind fun f => (hosts_readItem 1 _).bind fun _ =>
      hosts_invokeWith h f _
  case h_16 =>
    exact (hosts_readItem 1 _).bind fun f => (hosts_readItem 0 _).bind fun _ =>
      hosts_invokeWith h f _
  case h_17 => exact hosts_ofExcept (calm_choose _ _)
  case h_18 => exact hosts_ofExcept (calm_integerOf _ _)
  case h_19 => exact hosts_ofExcept (calm_wordOf _ _)
  all_goals first | exact hosts_pure _ | exact hosts_mistyped

end

/-! ## Parsers -/

section

variable [Primitive P] {run : Parser P → Value P → Run σ P (Value P)}
  (h : ∀ p c, (run p c).Hosts)

include h

theorem hosts_runAll (ps : List (Parser P)) (c : Value P) : (Body.runAll run ps c).Hosts := by
  induction ps generalizing c with
  | nil => exact hosts_pure _
  | cons p ps ih =>
    unfold Body.runAll
    refine (h p c).bind fun x => (hosts_readMatch x).bind fun m => ?_
    match m with
    | none => exact hosts_pure none
    | some (v, d) =>
      refine (ih d).bind fun m => ?_
      cases m <;> exact hosts_pure _

theorem hosts_runFirst (ps : List (Parser P)) (c : Value P) : (Body.runFirst run ps c).Hosts := by
  induction ps with
  | nil => exact hosts_pure _
  | cons p ps ih =>
    unfold Body.runFirst
    refine (h p c).bind fun x => ?_
    split
    · exact hosts_pure x
    · exact ih

theorem hosts_runMany (p : Parser P) (rounds : Nat) (c : Value P) :
    (Body.runMany run p rounds c).Hosts := by
  induction rounds generalizing c with
  | zero => exact fun s => holds_exhaust
  | succ rounds ih =>
    unfold Body.runMany
    refine (h p c).bind fun x => (hosts_readMatch x).bind fun m => ?_
    match m with
    | none => exact hosts_pure _
    | some (v, d) => exact (ih d).bind fun _ => hosts_pure _

end

section

variable [Primitive P] {invoke : Invoke σ P} (h : ∀ f args, (invoke f args).Hosts)

include h

theorem hosts_runMapper (m : Mapper P) (x : Value P) : (Body.runMapper invoke m x).Hosts := by
  have next (v : Value P) : (ofExcept x.nextField >>= fun n => pure (.success v n none) :
      Run σ P (Value P)).Hosts := (hosts_ofExcept (calm_nextField x)).bind fun n => hosts_pure _
  refine (hosts_ofExcept (calm_valueField x)).bind fun v => (hosts_mapper h m _).bind fun w => ?_
  split
  · split
    · exact next _
    · exact hosts_pure _
    · exact hosts_pure _
    · exact (hosts_ofExcept (calm_shown _)).bind fun w =>
        hosts_ofExcept (x := .error (.badOutcome w)) (calm_error nofun)
  · exact next _

theorem hosts_body [Supply σ] (b : Body P) (rounds : Nat) (c : Value P) :
    (b.apply invoke rounds c).Hosts := by
  have hp (p : Parser P) (d : Value P) : (invoke (.parser p) [d]).Hosts := h (.parser p) [d]
  have collect (f : Callable P) (xs : List (Value P)) (n : Value P) :
      (own (.list xs none) >>= fun xs => invoke f [xs] >>= fun x => pure (.success x n none) :
        Run σ P (Value P)).Hosts :=
    (hosts_own _).bind fun xs => (h f [xs]).bind fun x => hosts_pure _
  cases b with
  | succeed => exact hosts_pure _
  | fail => exact hosts_pure _
  | one => exact hosts_ofExcept (calm_takeToken c)
  | endOfInput => exact hosts_ofExcept (calm_takeEnd c)
  | optional p =>
    refine (hp p c).bind fun x => (hosts_readMatch x).bind fun m => ?_
    cases m <;> exact hosts_pure _
  | sequence ps =>
    refine (hosts_runAll hp ps c).bind fun m => ?_
    cases m <;> exact hosts_pure _
  | alternative ps => exact hosts_runFirst hp ps c
  | repeat0 p f => exact (hosts_runMany hp p rounds c).bind fun a => collect f a.1 a.2
  | repeat1 p f =>
    refine (hp p c).bind fun x => (hosts_readMatch x).bind fun m => ?_
    match m with
    | none => exact hosts_pure _
    | some (v, d) =>
      exact (hosts_runMany hp p rounds d).bind fun a => collect f (v :: a.1) a.2
  | map p m =>
    refine (hp p c).bind fun x => ?_
    split
    · exact hosts_runMapper h m x
    · exact hosts_pure _
  | raw f => exact hosts_invokeWith h f [c]

omit h in
theorem hosts_logged {r : Run σ P (Value P)} (hr : r.Hosts) (handler : Handler) (p : Parser P)
    (c : Value P) : (p.logged handler c r).Hosts := by
  have recorded (entry : LogEntry P) : (record handler entry : Run σ P Unit).Hosts :=
    fun s => holds_record trivial fun h => absurd h (Error.not_isComplaint nofun)
  refine (recorded _).bind fun _ => hr.bind fun x => ?_
  split
  · exact (hosts_ofExcept (calm_valueField x)).bind fun v =>
      (recorded _).bind fun _ => hosts_pure x
  · exact (recorded _).bind fun _ => hosts_pure x

end

/-- **A complaint that any call raises is one of the host.** -/
theorem hosted_call [Supply σ] [Primitive P] (ctx : Context P) (fuel : Nat) (f : Callable P)
    (args : List (Value P)) : (call ctx fuel f args : Run σ P (Value P)).Hosts := by
  induction fuel generalizing f args with
  | zero => exact fun s => holds_exhaust
  | succ fuel ih =>
    match f, args with
    | .parser p, [c] =>
      refine Hosts.bind ?_ hosts_own
      unfold Parser.apply
      split
      · exact hosts_logged (hosts_body ih p.body fuel c) ctx.handler p c
      · exact hosts_body ih p.body fuel c
    | .parser _, [] => exact hosts_mistyped
    | .parser _, _ :: _ :: _ => exact hosts_mistyped
    | .mapper m, args => exact (hosts_mapper ih m args).bind hosts_own
    | .action a, args => exact (hosts_action ih ctx a args).bind hosts_own

end ParserAlgebra
