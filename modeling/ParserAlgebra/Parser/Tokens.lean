import ParserAlgebra.Parser.Combinators
import ParserAlgebra.Parser.Names

/-!
# Parser/Tokens — parsers of a single token

A token parser reads one token and keeps it if a predicate holds for it.  The predicate is called
with the *components* of the token: a token that is itself a composite reaches it spread out.
-/

namespace ParserAlgebra.Parser

variable {P : Type} [Labelled P]

/-- **One token for which a predicate holds**, named after the predicate. -/
def satisfy (predicate : Callable P) : Parser P :=
  (one.mapped (.filter predicate)).named (predicate.name?.getD (.word "satisfy"))

/-- One token equal to `x`. -/
def token (x : Value P) : Parser P := (satisfy (.action (.equals x))).named x.form

/-- One token equal to any of `xs`. -/
def tokenIn (xs : List (Value P)) : Parser P :=
  (satisfy (.action (.oneOf xs))).named
    (.newText ("[" ++ " ".intercalate (xs.map Value.render) ++ "]"))

/-- One character of a set. -/
def charIn (cs : CharSet) : Parser P := satisfy (.action (.inSet cs))

/-- What is done with one token does not depend on the name it goes by. -/
@[simp] theorem satisfy_body (predicate : Callable P) :
    (satisfy predicate).body = .map one (.filter predicate) := rfl

@[simp] theorem token_body (x : Value P) :
    (token x).body = .map one (.filter (.action (.equals x))) := rfl

@[simp] theorem tokenIn_body (xs : List (Value P)) :
    (tokenIn xs).body = .map one (.filter (.action (.oneOf xs))) := rfl

/-- A single token is a single component. -/
@[simp] theorem satisfy_arity (predicate : Callable P) : (satisfy predicate).arity = some 1 := rfl

end ParserAlgebra.Parser
