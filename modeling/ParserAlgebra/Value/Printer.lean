import ParserAlgebra.Text.Quoted
import ParserAlgebra.Value

/-!
# Value/Printer — how a value is written

Names of token parsers, messages about a grammar and the debug log all show values, and all show
them in one form (`render`).  Texts are quoted; a tuple of one keeps a trailing comma; a cursor
shows where it stands and a parser its name.  A stray cursor stands nowhere, and is all that cannot
be written (`isWritable`).

A name, an arity or a message is shown *plainly* (`plain`): a text as it is, and anything else as it
is written.
-/

namespace ParserAlgebra

/-- The members of a tuple between parentheses; a single one is followed by a comma. -/
def renderTuple : List String → String
  | [x] => "(" ++ x ++ ",)"
  | xs => "(" ++ ", ".intercalate xs ++ ")"

/-- The characters of a set between braces; without any, there are no braces. -/
def renderSet : CharSet → String
  | [] => "frozenset()"
  | cs =>
    "frozenset(\x7b" ++ ", ".intercalate (cs.map fun c => quoted c.toString) ++ "\x7d)"

namespace Cursor

variable {V : Type}

/-- A cursor that has a position shows it and the size of its stream, any other how many steps are
left. -/
def render (c : Cursor V) : String :=
  match c.position? with
  | some position => "<SequenceCursor " ++ position.render ++ "/" ++ toString c.size ++ ">"
  | none => "<Linked " ++ c.left.render ++ ">"

end Cursor

variable {P : Type}

namespace Value

mutual

/-- **Whether a value has a written form.**  A cursor that cannot tell how many steps are left has
none, and no more has what would show one. -/
def isWritable : Value P → Bool
  | list xs _ => allWritable xs
  | tuple xs _ => allWritable xs
  | composite xs _ => allWritable xs
  | present x _ => x.isWritable
  | stray _ _ _ => false
  | success v n _ => v.isWritable && n.isWritable
  | callable (.parser ⟨name, _, _, _⟩) _ => name.isWritable
  | report ⟨some message, _, _, _⟩ _ => message.isWritable
  | _ => true

def allWritable : List (Value P) → Bool
  | [] => true
  | x :: xs => x.isWritable && allWritable xs

end

variable [Labelled P]

mutual

/-- A value as it is written; `bare` leaves out what only marks it as a text or as a report. -/
def written (bare : Bool) : Value P → String
  | null => "None"
  | bool b => if b then "True" else "False"
  | int i _ => toString i
  | decimal d _ => d.render
  | nan _ => "nan"
  | anything _ => "<ANY>"
  | text s _ => if bare then s else quoted s
  | charset cs _ => renderSet cs
  | list xs _ => "[" ++ ", ".intercalate (writtenAll xs) ++ "]"
  | tuple xs _ => renderTuple (writtenAll xs)
  | composite xs _ => "Values" ++ renderTuple (writtenAll xs)
  | iterable _ _ => "<iter>"
  | present x _ => "Some(" ++ x.written false ++ ")"
  | absent => "NOTHING"
  | anotherAbsent _ => "NOTHING"
  | cursor c _ => c.render
  | stray _ _ _ => "<Linked>"
  | success v n _ => "<Success " ++ v.written false ++ " " ++ n.written false ++ ">"
  | failure => "<Failure>"
  | anotherFailure _ => "<Failure>"
  | callable (.parser ⟨name, _, _, _⟩) _ => "<Parser " ++ name.written true ++ ">"
  | callable (.mapper _) _ => "<mapper>"
  | callable (.action .gather) _ => "<class 'list'>"
  | callable (.action a) _ => "<fn " ++ a.label?.getD "<lambda>" ++ ">"
  | report ⟨some message, _, _, _⟩ _ =>
    if bare then message.written true else "ParseError(" ++ message.written false ++ ")"
  | report ⟨none, _, _, _⟩ _ => if bare then "" else "ParseError()"

/-- The written forms of some values. -/
def writtenAll : List (Value P) → List String
  | [] => []
  | x :: xs => x.written false :: writtenAll xs

end

/-- **The written form of a value.** -/
def render (x : Value P) : String := x.written false

/-- **The form of a value where no quotes are wanted**: of a text, the text itself, and of a report,
its message. -/
def plain (x : Value P) : String := x.written true

/-- The written form as a text.  A form that never varies is there once. -/
def form : Value P → Value P
  | bool b => word (bool b : Value P).render
  | absent => word (absent : Value P).render
  | anotherAbsent _ => word (absent : Value P).render
  | failure => word (failure : Value P).render
  | anotherFailure _ => word (failure : Value P).render
  | iterable xs identity => word (iterable xs identity).render
  | x => newText x.render

@[simp] theorem plain_text (s : String) (identity : Identity) :
    (text s identity : Value P).plain = s := rfl

@[simp] theorem render_text (s : String) (identity : Identity) :
    (text s identity : Value P).render = quoted s := rfl

end Value

/-- What a parser is called where its name is shown. -/
def Parser.title [Labelled P] (p : Parser P) : String := p.name.plain

end ParserAlgebra
