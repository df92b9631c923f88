import ParserAlgebra.Parser.Names
import ParserAlgebra.Run
import ParserAlgebra.Value.Elements
import ParserAlgebra.Value.Fields
import ParserAlgebra.Value.Shape

/-!
# Call — what happens when a callable is called

    parser(cursor)   mapper(component, …)   action(argument, …)

The three kinds of callables call each other: a parser its operands, a mapper its function, an
action what it was built from or what a name is bound to.  Each kind has one function below that
says what it does *given* how calls are made (`invoke`), and `call` ties the knot.

What a call returns is numbered (`Run.own`), and so is whatever is made in a call to be handed to
another: from then on it can be held in several places and still is one object.

A grammar may recurse without end, so `call` is given fuel: each call within a call has one unit
less, and a repetition makes at most as many rounds as it has units.  A run that returns or raises
has not noticed; only one that would need more is `exhausted`.

## Results

A parser may be made of any callable, and what that returns is its result.  A result is a match if
it is true; only then are its `value` and its `next` cursor read, and not every true value has them.
-/

namespace ParserAlgebra

/-- **What a function of a host does once it is called**: it answers, or raises any error, or calls
something else and goes on with what that returned.  It does not catch what is raised there. -/
inductive Conduct (P : Type) where
  | answers (x : Value P)
  | raises (e : Error P)
  | calls (f : Value P) (args : List (Value P)) (resume : Value P → Conduct P)

/-- **The functions of a host**, under their labels. -/
class Primitive (P : Type) extends Labelled P where
  call : P → List (Value P) → Conduct P

/-- What a run can look up: what names are bound to, whether the log is on, and who handles it. -/
structure Context (P : Type) where
  rules : String → Option (Value P)
  debug : Bool
  handler : Handler

/-- What names are bound to, and no log. -/
abbrev quiet {P : Type} (rules : String → Option (Value P)) : Context P :=
  ⟨rules, false, .lenient⟩

/-- How calls are made. -/
abbrev Invoke (σ P : Type) := Callable P → List (Value P) → Run σ P (Value P)

variable {σ P : Type}

namespace Value

/-- Reads a result: nothing if it is no match, its value and the cursor after it otherwise. -/
def readMatch (result : Value P) : Run σ P (Option (Value P × Value P)) :=
  if result.isTruthy then do
    let v ← Run.ofExcept result.valueField
    let n ← Run.ofExcept result.nextField
    return some (v, n)
  else return none

/-- Calls a value, if it can be called. -/
def invokeWith (invoke : Invoke σ P) : Value P → List (Value P) → Run σ P (Value P)
  | callable f _, args => invoke f args
  | _, _ => Run.raise .mistyped

/-- The elements of a value, each taken hold of. -/
def read [Supply σ] (x : Value P) : Run σ P (List (Value P)) := do
  Run.ownAll (← Run.ofExcept x.elements)

/-- The elements of a value from the back, each taken hold of. -/
def readReversed [Supply σ] (x : Value P) : Run σ P (List (Value P)) := do
  Run.ownAll (← Run.ofExcept x.reversed)

/-- One element of a value, taken hold of. -/
def readItem [Supply σ] (i : Nat) (x : Value P) : Run σ P (Value P) := do
  Run.own (← Run.ofExcept (x.item i))

/-- Without numbers to hand out, the elements are read as they are. -/
theorem read_silent [Supply σ] [Supply.Silent σ] {x : Value P} {xs : List (Value P)}
    (h : x.elements = .ok xs) : (x.read : Run σ P _) = pure xs := by
  rw [read, h]
  exact Run.ownAll_silent xs

theorem readReversed_silent [Supply σ] [Supply.Silent σ] {x : Value P} {xs : List (Value P)}
    (h : x.elements = .ok xs) : (x.readReversed : Run σ P _) = pure xs.reverse := by
  rw [readReversed, reversed_eq, h]
  exact Run.ownAll_silent xs.reverse

@[simp] theorem readMatch_success (v n : Value P) (identity : Identity) :
    ((success v n identity).readMatch : Run σ P _) = return some (v, n) := rfl

@[simp] theorem readMatch_failure :
    ((failure : Value P).readMatch : Run σ P _) = return none := rfl

end Value

/-! ## Functions of a host -/

namespace Conduct

/-- A function that calls nothing. -/
def ofExcept : Except (Error P) (Value P) → Conduct P
  | .ok x => answers x
  | .error e => raises e

/-- What a function does, given how calls are made. -/
def follow [Supply σ] (invoke : Invoke σ P) : Conduct P → Run σ P (Value P)
  | answers x => return x
  | raises e => Run.raise e
  | calls f args resume => do
    let r ← f.invokeWith invoke (← Run.ownAll args)
    (resume r).follow invoke

@[simp] theorem follow_ofExcept [Supply σ] (invoke : Invoke σ P)
    (r : Except (Error P) (Value P)) : (ofExcept r).follow invoke = Run.ofExcept r := by
  cases r <;> rfl

end Conduct

/-! ## Mappers -/

namespace Mapper

variable (invoke : Invoke σ P)

/-- The arguments at some indices. -/
def choose (indices : List Nat) (args : List (Value P)) : Except (Error P) (Value P) := do
  let xs ← indices.mapM (Value.itemOf args)
  return Value.tupleOf xs

/-- A mapper called with components. -/
def apply (m : Mapper P) (args : List (Value P)) : Run σ P (Value P) :=
  match m with
  | total f _ => invoke f args
  | fallible f _ => invoke f args
  | select indices => Run.ofExcept (choose indices args)
  | filter predicate => do
    let holds ← invoke predicate args
    return if holds.isTruthy then .present (Value.tupleOf args) none else .absent

/-- The items at some indices, or an error if one is missing. -/
theorem choose_eq (indices : List Nat) (xs : List (Value P)) :
    choose indices xs =
      (match indices.mapM fun i => xs[i]? with
        | some ys => .ok (Value.tupleOf ys)
        | none => .error .outOfRange) := by
  have items : indices.mapM (Value.itemOf xs) =
      (match indices.mapM fun i => xs[i]? with
        | some ys => .ok ys
        | none => .error .outOfRange) := by
    induction indices with
    | nil => rfl
    | cons i is ih =>
      rw [List.mapM_cons, List.mapM_cons, ih, Value.itemOf]
      cases xs[i]? with
      | none => rfl
      | some x => cases is.mapM fun i => xs[i]? <;> rfl
  rw [choose, items]
  cases indices.mapM fun i => xs[i]? <;> rfl

/-- What is chosen was there. -/
theorem subset_of_mapM {indices : List Nat} {xs ys : List (Value P)}
    (h : (indices.mapM fun i => xs[i]?) = some ys) : ys ⊆ xs := by
  induction indices generalizing ys with
  | nil =>
    cases h
    exact List.nil_subset xs
  | cons i is ih =>
    rw [List.mapM_cons] at h
    obtain ⟨x, hx, h⟩ := Option.bind_eq_some_iff.1 h
    obtain ⟨zs, hzs, h⟩ := Option.bind_eq_some_iff.1 h
    cases h
    exact List.cons_subset.2 ⟨List.mem_of_getElem? hx, ih hzs⟩

/-- As many are chosen as there are indices. -/
theorem length_of_mapM {indices : List Nat} {xs ys : List (Value P)}
    (h : (indices.mapM fun i => xs[i]?) = some ys) : ys.length = indices.length := by
  induction indices generalizing ys with
  | nil =>
    cases h
    rfl
  | cons i is ih =>
    rw [List.mapM_cons] at h
    obtain ⟨x, _, h⟩ := Option.bind_eq_some_iff.1 h
    obtain ⟨zs, hzs, h⟩ := Option.bind_eq_some_iff.1 h
    cases h
    exact congrArg (· + 1) (ih hzs)

/-- Indices that are all inside choose something. -/
theorem exists_mapM {indices : List Nat} {xs : List (Value P)} (h : ∀ i ∈ indices, i < xs.length) :
    ∃ ys, (indices.mapM fun i => xs[i]?) = some ys := by
  induction indices with
  | nil => exact ⟨[], rfl⟩
  | cons i is ih =>
    obtain ⟨hi, his⟩ := List.forall_mem_cons.1 h
    obtain ⟨ys, hys⟩ := ih his
    refine ⟨xs[i] :: ys, ?_⟩
    rw [List.mapM_cons, hys, List.getElem?_eq_getElem hi]
    rfl

end Mapper

/-! ## Actions -/

namespace Action

/-- The characters of some one-character texts, put together. -/
def joinTexts : List (Value P) → Except (Error P) String
  | [] => .ok ""
  | .text s _ :: xs => (joinTexts xs).map fun t => s ++ t
  | _ :: _ => .error .mistyped

/-- The most digits a number is read from, leading zeros included. -/
def digitLimit : Nat := 4300

/-- The whole number that a text of digits denotes, unless there are too many of them. -/
def digitsOf (text : String) : Except (Error P) Int :=
  if text.length ≤ digitLimit then .ok (Decimal.ofDigits text.toList) else .error .tooManyDigits

/-- A sign, which counts if it is there, and a list of digits. -/
def integerOf (sign digits : Value P) : Except (Error P) (Value P) := do
  let text ← joinTexts (← digits.elements)
  let n ← digitsOf text
  return .ofInt (if sign.isTruthy then -n else n)

/-- A first text and a list of further ones. -/
def wordOf (first rest : Value P) : Except (Error P) (Value P) := do
  let text ← joinTexts (first :: (← rest.elements))
  return .ofText text

variable [Supply σ] (invoke : Invoke σ P)

/-- Folds from the front: `step (… step (step a x₁) x₂ …) xₙ`. -/
def foldLeftWith (step : Callable P) (initial items : Value P) : Run σ P (Value P) := do
  let xs ← items.read
  xs.foldlM (fun acc x => invoke step [acc, x]) initial

/-- Folds from the back: `step x₁ (step x₂ … (step xₙ a) …)`, the last element first. -/
def foldRightWith (step : Callable P) (items initial : Value P) : Run σ P (Value P) := do
  let xs ← items.readReversed
  xs.foldlM (fun acc x => invoke step [x, acc]) initial

/-- Puts the leading components and the elements of the last into one list, and collects it. -/
def collectWith (collection : Value P) (args : List (Value P)) : Run σ P (Value P) :=
  match args.getLast? with
  | none => Run.raise .outOfRange
  | some last => do
    let xs ← Run.ofExcept last.elements
    let items ← Run.own (.list (Value.tupleOf args.dropLast :: xs) none)
    collection.invokeWith invoke [items]

/-- An operator in front of an operand, between what is on its left and that operand. -/
def stepLeftWith (acc step : Value P) : Run σ P (Value P) := do
  let operator ← step.readItem 0
  let operand ← step.readItem 1
  operator.invokeWith invoke [acc, operand]

/-- An operator behind an operand, between that operand and what is on its right. -/
def stepRightWith (step acc : Value P) : Run σ P (Value P) := do
  let operator ← step.readItem 1
  let operand ← step.readItem 0
  operator.invokeWith invoke [operand, acc]

/-- **An action called with arguments.**  All but the primitives check how many there are. -/
def apply [Primitive P] (ctx : Context P) (a : Action P) (args : List (Value P)) :
    Run σ P (Value P) :=
  match a, args with
  | primitive f, args => (Primitive.call f args).follow invoke
  | constant x, _ => return x
  | unnamed a, args => invoke (.action a) args
  | gather, [] => return .list [] none
  | gather, [items] => do
    let xs ← Run.ofExcept items.elements
    return .list xs none
  | wrap, [f] => do
    let f ← Run.ofExcept f.shown
    return .ofParser (.ofFunction f)
  | rule name, args => match ctx.rules name with
    | some f => f.invokeWith invoke args
    | none => Run.raise (.unbound name)
  | equals x, [token] => return .bool (token.equals x)
  | oneOf xs, [token] => return .bool (token.isIn xs)
  | inSet cs, [token] => do
    let holds ← Run.ofExcept (Value.memberOf cs token)
    return .bool holds
  | discard, _ => return .composite [] none
  | collectSeparated collection, args => collectWith invoke collection args
  | foldLeft step, [initial, items] => foldLeftWith invoke step initial items
  | foldRight step, [items, initial] => foldRightWith invoke step items initial
  | stepLeft, [acc, step] => stepLeftWith invoke acc step
  | stepRight, [step, acc] => stepRightWith invoke step acc
  | choose indices, args => Run.ofExcept (Mapper.choose indices args)
  | toInteger, [sign, digits] => Run.ofExcept (integerOf sign digits)
  | joinWord, [first, rest] => Run.ofExcept (wordOf first rest)
  | _, _ => Run.raise .mistyped

end Action

/-! ## Parsers -/

namespace Body

/-- One token, unless there is none. -/
def takeToken (c : Value P) : Except (Error P) (Value P) := do
  let c ← c.asCursor
  if c.atEnd then return .failure
  else
    let x ← Error.ofCursor c.current
    return .success x (.cursor (← Error.ofCursor c.advance) none) none

/-- The end of the input and nothing else. -/
def takeEnd (c : Value P) : Except (Error P) (Value P) := do
  let d ← c.asCursor
  return if d.atEnd then .success (.composite [] none) c none else .failure

/-- At the end there is no token to take. -/
theorem takeToken_of_atEnd {c : Cursor (Value P)} (h : c.atEnd = true) (i : Identity) :
    takeToken (.cursor c i) = .ok .failure := by
  simp only [takeToken, Value.asCursor_cursor, bind, Except.bind, h]
  rfl

/-- A token that can be read is taken. -/
theorem takeToken_of_current {c d : Cursor (Value P)} {x : Value P} (h : c.atEnd = false)
    (hx : c.current = .ok x) (hd : c.advance = .ok d) (i : Identity) :
    takeToken (.cursor c i) = .ok (.success x (.cursor d none) none) := by
  simp only [takeToken, Value.asCursor_cursor, bind, Except.bind, h, hx, hd, Error.ofCursor]
  rfl

/-- **What taking a token comes to**: no match, or the token under a cursor, and the next cursor. -/
theorem takeToken_eq_ok {c r : Value P} (h : takeToken c = .ok r) :
    ∃ d i, c = .cursor d i ∧ (r = .failure ∨
      ∃ x e, d.current = .ok x ∧ d.advance = .ok e ∧ r = .success x (.cursor e none) none) := by
  obtain ⟨d, hd, ht⟩ := exists_ok_of_bind h
  obtain ⟨i, rfl⟩ : ∃ i, c = .cursor d i := by
    cases c with
    | cursor d' i =>
      cases hd
      exact ⟨i, rfl⟩
    | _ => contradiction
  refine ⟨d, i, rfl, ?_⟩
  split at ht
  · cases ht
    exact .inl rfl
  · obtain ⟨x, hx, ht⟩ := exists_ok_of_bind ht
    obtain ⟨e, he, ht⟩ := exists_ok_of_bind ht
    cases ht
    exact .inr ⟨x, e, Error.eq_ok_of_ofCursor hx, Error.eq_ok_of_ofCursor he, rfl⟩

theorem takeEnd_cursor (c : Cursor (Value P)) (i : Identity) : takeEnd (.cursor c i) =
    .ok (if c.atEnd then .success (.composite [] none) (.cursor c i) none else .failure) := rfl

section

variable (run : Parser P → Value P → Run σ P (Value P))

/-- The values of parsers one after the other and the cursor behind the last, if all match. -/
def runAll : List (Parser P) → Value P → Run σ P (Option (List (Value P) × Value P))
  | [], c => return some ([], c)
  | p :: ps, c => do
    match ← (← run p c).readMatch with
    | none => return none
    | some (v, d) => match ← runAll ps d with
      | none => return none
      | some (vs, e) => return some (v :: vs, e)

/-- The first match among parsers tried from one cursor. -/
def runFirst : List (Parser P) → Value P → Run σ P (Value P)
  | [], _ => return .failure
  | p :: ps, c => do
    let result ← run p c
    if result.isTruthy then return result else runFirst ps c

/-- The values of one parser matched over and over, and the cursor behind the last match. -/
def runMany (p : Parser P) : Nat → Value P → Run σ P (List (Value P) × Value P)
  | 0, _ => Run.exhaust
  | rounds + 1, c => do
    match ← (← run p c).readMatch with
    | none => return ([], c)
    | some (v, d) => do
      let (vs, e) ← runMany p rounds d
      return (v :: vs, e)

end

variable [Supply σ] (invoke : Invoke σ P)

/-- What becomes of a match whose components go through a mapper: a fallible one may refuse. -/
def runMapper (m : Mapper P) (result : Value P) : Run σ P (Value P) := do
  let v ← Run.ofExcept result.valueField
  let w ← m.apply invoke v.components
  if m.isFallible then
    match w with
    | .present x _ => return .success x.unwrap (← Run.ofExcept result.nextField) none
    | .absent | .anotherAbsent _ => return .failure
    | w => do Run.raise (.badOutcome (← Run.ofExcept w.shown))
  else return .success w.unwrap (← Run.ofExcept result.nextField) none

/-- **What a parser does at a cursor**, given how calls are made. -/
def apply (rounds : Nat) (body : Body P) (c : Value P) : Run σ P (Value P) :=
  let run (p : Parser P) (c : Value P) : Run σ P (Value P) := invoke (.parser p) [c]
  match body with
  | succeed => return .success (.composite [] none) c none
  | fail => return .failure
  | one => Run.ofExcept (takeToken c)
  | endOfInput => Run.ofExcept (takeEnd c)
  | optional p => do
    match ← (← run p c).readMatch with
    | some (v, d) => return .success (.present v none) d none
    | none => return .success .absent c none
  | sequence ps => do
    match ← runAll run ps c with
    | some (vs, d) => return .success (Value.concat vs) d none
    | none => return .failure
  | alternative ps => runFirst run ps c
  | repeat0 p collection => do
    let (vs, d) ← runMany run p rounds c
    let collected ← invoke collection [← Run.own (.list vs none)]
    return .success collected d none
  | repeat1 p collection => do
    match ← (← run p c).readMatch with
    | none => return .failure
    | some (v, d) => do
      let (vs, e) ← runMany run p rounds d
      let collected ← invoke collection [← Run.own (.list (v :: vs) none)]
      return .success collected e none
  | map p m => do
    let result ← run p c
    if result.isTruthy then runMapper invoke m result else return .failure
  | raw f => f.invokeWith invoke [c]

end Body

namespace Parser

/-- A run of a parser between the two entries it leaves in the log. -/
def logged (handler : Handler) (p : Parser P) (c : Value P) (body : Run σ P (Value P)) :
    Run σ P (Value P) := do
  Run.record handler (.trying p.name c)
  let result ← body
  if result.isTruthy then
    let v ← Run.ofExcept result.valueField
    Run.record handler (.matched p.name v)
    return result
  else
    Run.record handler (.failed p.name)
    return result

/-- A parser called with a cursor: its body, and the log if it is on. -/
def apply [Supply σ] (invoke : Invoke σ P) (rounds : Nat) (ctx : Context P) (p : Parser P)
    (c : Value P) : Run σ P (Value P) :=
  let body := p.body.apply invoke rounds c
  if ctx.debug then p.logged ctx.handler c body else body

end Parser

variable [Supply σ]

/-- **Calls a callable with arguments.**  A parser takes exactly one, the cursor. -/
def call [Primitive P] (ctx : Context P) : Nat → Callable P → List (Value P) → Run σ P (Value P)
  | 0, _, _ => Run.exhaust
  | fuel + 1, .parser p, [c] => do Run.own (← p.apply (call ctx fuel) fuel ctx c)
  | _ + 1, .parser _, _ => Run.raise .mistyped
  | fuel + 1, .mapper m, args => do Run.own (← m.apply (call ctx fuel) args)
  | fuel + 1, .action a, args => do Run.own (← a.apply (call ctx fuel) ctx args)

namespace Parser

/-- A parser run at a cursor. -/
def run [Primitive P] (ctx : Context P) (fuel : Nat) (p : Parser P) (c : Value P) :
    Run σ P (Value P) :=
  call ctx fuel (.parser p) [c]

/-- The report of a parse that stopped at a position, and why. -/
def report (message : String) (position : Number) (origin : Origin) (tokens : List (Value P)) :
    Error P :=
  .parse ⟨some (.newText message), position, origin, tokens⟩ none

/-- **A whole parse**: the value produced from the start of a stream.  With `full`, all tokens have
to be consumed; what is left over is reported at the cursor's own position, if it has one. -/
def parse [Primitive P] (ctx : Context P) (fuel : Nat) (p : Parser P) (origin : Origin)
    (tokens : List (Value P)) (full : Bool) : Run σ P (Value P) := do
  let start ← Run.own (.cursor (Cursor.start origin tokens) none)
  let result ← p.run ctx fuel start
  if result.isTruthy then
    let next ← Run.ofExcept result.nextField
    if full then
      let c ← Run.ofExcept next.asCursor
      if c.atEnd then Run.ofExcept result.valueField
      else
        let position := c.position?.getD (.int 0)
        Run.raise (report "Expected the end of the input." position origin tokens)
    else Run.ofExcept result.valueField
  else
    let p ← Run.ofExcept p.titled
    Run.raise (report ("Failed to parse " ++ p.title ++ ".") (.int 0) origin tokens)

end Parser

end ParserAlgebra
