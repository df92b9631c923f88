import ParserAlgebra.Value.Printer

/-!
# Log — what a parser invocation leaves behind

While debugging is on, every invocation of a parser is announced and, if nothing is raised in
between, closed again: with the value it matched, or as failed.

An entry is handed over as it is and written down by whoever handles the log.  Not every entry can
be written, since it shows values, and what becomes of one that cannot is for the handler to say.
-/

namespace ParserAlgebra

/-- **One entry of the debug log.** -/
inductive LogEntry (P : Type) where
  | trying (name cursor : Value P)
  | matched (name value : Value P)
  | failed (name : Value P)

/-- **What becomes of an entry that has no written form.** -/
inductive Handler where
  /-- It is left out, and the run goes on.  A log does this unless it is set up otherwise. -/
  | lenient
  /-- What came up while it was being written is raised where the entry was handed over. -/
  | strict

namespace LogEntry

variable {P : Type}

/-- Whether the entry has a written form: its name and what it shows have one. -/
def isWritable : LogEntry P → Bool
  | trying name cursor => name.isWritable && cursor.isWritable
  | matched name value => name.isWritable && value.isWritable
  | failed name => name.isWritable

variable [Labelled P]

/-- The line an entry is written as. -/
def line : LogEntry P → String
  | trying name cursor => "trying " ++ name.plain ++ " at " ++ cursor.render
  | matched name value => "matched " ++ name.plain ++ " -> " ++ value.render
  | failed name => "failed " ++ name.plain

end LogEntry

end ParserAlgebra
