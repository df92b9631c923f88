import ParserAlgebra.Mapper
import ParserAlgebra.Value.Printer

/-!
# Parser/Names — what a parser is called when nobody says

A function brings a name along, and a parser that is made of it takes that name.  What was never
named goes by how it is written.  The library's own parsers are made of functions too, one for each
kind of body, and fall back on their names when theirs is taken away.
-/

namespace ParserAlgebra

variable {P : Type} [Labelled P]

/-- The name a callable brings along; parsers and mappers bring none. -/
def Callable.name? : Callable P → Option (Value P)
  | .action a => a.name?.map Value.word
  | _ => none

/-- The name a value brings along, or else how it is written. -/
def Value.nameOrForm : Value P → Value P
  | v@(.callable f _) => f.name?.getD v.form
  | v => v.form

/-- **A parser made of a function**, under the name that brings along. -/
def Parser.ofFunction (f : Value P) : Parser P :=
  { name := f.nameOrForm, declared := none, body := .raw f }

/-- The name of the function a parser is made of.  Where the function has no name, its written form
has to do. -/
def Body.ownName : Body P → Except (Error P) (Value P)
  | .succeed => .ok (.word "succeed_fn")
  | .fail => .ok (.word "fail_fn")
  | .one => .ok (.word "one_fn")
  | .endOfInput => .ok (.word "end_of_input")
  | .optional _ => .ok (.word "optional_fn")
  | .sequence _ => .ok (.word "sequence_fn")
  | .alternative _ => .ok (.word "alternative_fn")
  | .repeat0 _ _ => .ok (.word "repeat0_fn")
  | .repeat1 _ _ => .ok (.word "repeat1_fn")
  | .map _ m => .ok (.word (if m.isFallible then "try_map_fn" else "map_fn"))
  | .raw f => if f.isWritable then .ok f.nameOrForm else .error .mistyped

end ParserAlgebra
