import ParserAlgebra.Value

/-!
# Value/Equality — when two tokens are the same token

Numbers of all kinds compare as numbers, with `false` and `true` standing for zero and one.  Tuples
and composites compare component for component, whichever of the two they are; lists equal only
lists.  Optional values and matches compare by content, cursors by stream and position, and whatever
can be called, by identity alone.

Not everything equals itself: what is no number does not, nor does an optional value that holds it.
So members are looked for in another way, as the same object or an equal one (`isOrEquals`), and the
members of tuples and lists are compared like that too.  Nor is it the same which of two values is
asked: what says that it equals everything equals a failure, which equals nothing but failures.

Membership in a set also asks that a value be *hashable*: immutable all the way down.
-/

namespace ParserAlgebra.Value

variable {P : Type}

/-- Whether a value is a number equal to `n`. -/
def isNumber (n : Number) (x : Value P) : Bool := x.number?.any n.same

/-- An absent value, whichever object it is. -/
def isAbsent : Value P → Bool
  | absent => true
  | anotherAbsent _ => true
  | _ => false

/-- A failure, whichever object it is. -/
def isFailure : Value P → Bool
  | failure => true
  | anotherFailure _ => true
  | _ => false

/-- Whether a value says that it equals whatever it is compared with. -/
def isAnything : Value P → Bool
  | anything _ => true
  | _ => false

mutual

/-- **Equality of values.**  The first is asked, and the second where the first cannot tell. -/
def equals : Value P → Value P → Bool
  | null, y => match y with
    | null => true
    | _ => y.isAnything
  | bool b, y => y.isNumber (.truth b) || y.isAnything
  | int i _, y => y.isNumber (.int i) || y.isAnything
  | decimal d _, y => y.isNumber (.decimal d) || y.isAnything
  | nan _, y => y.isAnything
  | anything _, _ => true
  | text s _, y => match y with
    | text t _ => s == t
    | _ => y.isAnything
  | charset cs _, y => match y with
    | charset ds _ => cs == ds
    | _ => y.isAnything
  | list xs _, y => match y with
    | list ys _ => equalsAll xs ys
    | _ => y.isAnything
  | tuple xs _, y => match y with
    | tuple ys _ => equalsAll xs ys
    | composite ys _ => equalsAll xs ys
    | _ => y.isAnything
  | composite xs _, y => match y with
    | tuple ys _ => equalsAll xs ys
    | composite ys _ => equalsAll xs ys
    | _ => y.isAnything
  | iterable _ i, y => match y with
    | iterable _ j => sameIdentity i j
    | _ => y.isAnything
  | present x _, y => match y with
    | present y _ => x.equals y
    | _ => y.isAnything
  | absent, y => y.isAbsent
  | anotherAbsent _, y => y.isAbsent
  | cursor c _, y => match y with
    | cursor d _ => c.same d
    | _ => y.isAnything
  | stray s p _, y => match y with
    | stray t q _ => sameIdentity s.identity t.identity && p.equals q
    | _ => y.isAnything
  | success v n _, y => match y with
    | success w m _ => v.equals w && n.equals m
    | _ => y.isAnything
  | failure, y => y.isFailure
  | anotherFailure _, y => y.isFailure
  | callable _ i, y => match y with
    | callable _ j => sameIdentity i j
    | _ => y.isAnything
  | report _ i, y => match y with
    | report _ j => sameIdentity i j
    | _ => y.isAnything

/-- Equality member by member: the same object, or an equal one. -/
def equalsAll : List (Value P) → List (Value P) → Bool
  | [], ys => ys.isEmpty
  | x :: xs, ys => match ys with
    | [] => false
    | y :: ys => (sameIdentity x.identity y.identity || x.equals y) && equalsAll xs ys

end

mutual

/-- **Whether a value can be a member of a set**: nothing inside it may change. -/
def isHashable : Value P → Bool
  | list _ _ => false
  | success _ _ _ => false
  | tuple xs _ => allHashable xs
  | composite xs _ => allHashable xs
  | present x _ => x.isHashable
  | cursor c _ => c.isChecked
  | stray _ _ _ => false
  | anything _ => false
  | _ => true

def allHashable : List (Value P) → Bool
  | [] => true
  | x :: xs => x.isHashable && allHashable xs

end

/-- **Whether two values are one object, or equal.** -/
def isOrEquals (x y : Value P) : Bool := sameIdentity x.identity y.identity || x.equals y

/-- Whether `x` is one of the values of a list, or one of them equals it. -/
def isIn (x : Value P) (xs : List (Value P)) : Bool := xs.any fun y => y.isOrEquals x

/-- Whether `x` is the text of one character of the set. -/
def isInSet (x : Value P) (cs : CharSet) : Bool :=
  match x with
  | text s _ => cs.any fun c => c.toString == s
  | _ => false

/-- How many different values there are in a list. -/
def countDistinct (xs : List (Value P)) : Nat :=
  (xs.foldl (fun seen x => if x.isIn seen then seen else x :: seen) []).length

/-! ## Equality on the shapes -/

@[simp] theorem equals_text (s t : String) (i j : Identity) :
    (text s i : Value P).equals (text t j) = (s == t) := by rw [equals]

@[simp] theorem equals_int (m n : Int) (i j : Identity) :
    (int m i : Value P).equals (int n j) = (m == n) := by
  rw [equals]
  simp [isNumber, number?, isAnything]

@[simp] theorem equals_composite_tuple (xs ys : List (Value P)) (i j : Identity) :
    (composite xs i).equals (tuple ys j) = equalsAll xs ys := by rw [equals]

/-- A number does not say that it equals everything. -/
theorem isAnything_of_number? {y : Value P} {n : Number} (h : y.number? = some n) :
    y.isAnything = false := by
  cases y with
  | anything _ => contradiction
  | _ => rfl

/-- What can be hashed and equals a number is the same number. -/
theorem exists_number_of_equals {x y : Value P} {n : Number} (h : x.equals y = true)
    (hx : x.isHashable = true) (hy : y.number? = some n) :
    ∃ m, x.number? = some m ∧ m.same n = true := by
  have key : ∀ m : Number, (y.isNumber m || y.isAnything) = true → m.same n = true :=
    fun m hm => by simpa [isNumber, hy, isAnything_of_number? hy] using hm
  cases x with
  | bool b => exact ⟨_, rfl, key _ (by rwa [equals] at h)⟩
  | int i _ => exact ⟨_, rfl, key _ (by rwa [equals] at h)⟩
  | decimal d _ => exact ⟨_, rfl, key _ (by rwa [equals] at h)⟩
  | anything _ => contradiction
  | _ => cases y <;> simp_all [equals, number?, isAbsent, isFailure, isAnything]

/-- What is the same number is equal. -/
theorem equals_of_same {x y : Value P} {m n : Number} (hx : x.number? = some m)
    (hy : y.number? = some n) (h : m.same n = true) : x.equals y = true := by
  have known : y.isNumber m = true := by rwa [isNumber, hy]
  match x with
  | bool b =>
    obtain rfl : Number.truth b = m := Option.some.inj hx
    rw [equals, known, Bool.true_or]
  | int i _ =>
    obtain rfl : Number.int i = m := Option.some.inj hx
    rw [equals, known, Bool.true_or]
  | decimal d _ =>
    obtain rfl : Number.decimal d = m := Option.some.inj hx
    rw [equals, known, Bool.true_or]

end ParserAlgebra.Value
