import ParserAlgebra.Cursor

/-!
# Report — where a parse stopped, and why

A report carries the tokens that were parsed and the position the parse stopped at, as it was given.
A note never points past the end of the input, so it shows the smaller of position and size.
-/

namespace ParserAlgebra

/-- **A positioned parse error.**  `position` is as it was given, also when it lies outside, and so
is the message, if there is one. -/
structure Report (V : Type) where
  message : Option V
  position : Number
  origin : Origin
  tokens : List V

namespace Report

variable {V : Type}

/-- A note on a position of the parsed tokens, under a line of its own if there is one to say. -/
def note (r : Report V) (position : Number) (message : Option String) : String :=
  let place := "At position " ++ (position.upTo r.tokens.length).render
  match message with
  | none => place
  | some text => text ++ "\n" ++ place

/-- The note every report starts with: where the parse stopped. -/
def firstNote (r : Report V) : String := r.note r.position none

/-- A position inside the input is noted as it is. -/
theorem note_of_atMost {r : Report V} {position : Number}
    (h : position.atMost (.int r.tokens.length) = true) :
    r.note position none = "At position " ++ position.render := by
  simp [note, Number.upTo_of_atMost h]

end Report

end ParserAlgebra
