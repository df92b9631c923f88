import ParserAlgebra.Parser.Combinators

/-!
# Parser/Chains — items in a row, with something in between

    separated    item (separator item)*         a list of the items
    chainLeft    operand (operator operand)*    folded from the left
    chainRight   (operand operator)* operand    folded from the right

What stands between the items is dropped by `separated` and applied by the chains: there an operator
produces a binary function.
-/

namespace ParserAlgebra.Parser

variable {P : Type} [Labelled P]

/-- The default collection: a list. -/
def gathered : Callable P := .action .gather

/-- **One or more items with separators in between**, the separators dropped. -/
def separated (p separator : Parser P) (collection : Value P) :
    Except (Error P) (Parser P) := do
  let tail := (← sequence [← skip separator, p]).repeat0 gathered
  let collect := Mapper.total (.action (.collectSeparated collection)) (some (.ofInt 1))
  let q ← (← sequence [p, tail]).map collect
  return q.named (.newText ("separated(" ++ p.title ++ ", " ++ separator.title ++ ")"))

/-- **Operands with operators in between**, applied from the left. -/
def chainLeft (operand operator : Parser P) : Except (Error P) (Parser P) := do
  let rest := (← sequence [operator, operand]).repeat0 gathered
  (← sequence [operand, rest]).map (.foldl (.action .stepLeft))

/-- The same, applied from the right. -/
def chainRight (operand operator : Parser P) : Except (Error P) (Parser P) := do
  let init := (← sequence [operand, operator]).repeat0 gathered
  (← sequence [init, operand]).map (.foldr (.action .stepRight))

end ParserAlgebra.Parser
