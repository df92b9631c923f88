import ParserAlgebra.ArgumentCount
import ParserAlgebra.Call
import ParserAlgebra.Call.Congruence
import ParserAlgebra.Call.Fuel
import ParserAlgebra.Catalogue.Functions
import ParserAlgebra.Catalogue.Readers
import ParserAlgebra.Cursor
import ParserAlgebra.Decimal
import ParserAlgebra.Error
import ParserAlgebra.Identity
import ParserAlgebra.Log
import ParserAlgebra.Mapper
import ParserAlgebra.Number
import ParserAlgebra.Parser.Chains
import ParserAlgebra.Parser.Characters
import ParserAlgebra.Parser.Combinators
import ParserAlgebra.Parser.Names
import ParserAlgebra.Parser.Tokens
import ParserAlgebra.Proofs.Answers
import ParserAlgebra.Proofs.Arithmetic
import ParserAlgebra.Proofs.Arity
import ParserAlgebra.Proofs.Arity.Counted
import ParserAlgebra.Proofs.Arity.Fits
import ParserAlgebra.Proofs.Arity.Results
import ParserAlgebra.Proofs.Arity.Single
import ParserAlgebra.Proofs.Calls
import ParserAlgebra.Proofs.Chains
import ParserAlgebra.Proofs.Comes
import ParserAlgebra.Proofs.Comes.General
import ParserAlgebra.Proofs.Composed
import ParserAlgebra.Proofs.Consumption
import ParserAlgebra.Proofs.Consumption.Complaints
import ParserAlgebra.Proofs.Consumption.Legs
import ParserAlgebra.Proofs.Derivation
import ParserAlgebra.Proofs.Derivation.Agreement
import ParserAlgebra.Proofs.Derivation.Completeness
import ParserAlgebra.Proofs.Derivation.Reading
import ParserAlgebra.Proofs.Derivation.Soundness
import ParserAlgebra.Proofs.Distribution
import ParserAlgebra.Proofs.Ends
import ParserAlgebra.Proofs.Ends.Choices
import ParserAlgebra.Proofs.Ends.Filters
import ParserAlgebra.Proofs.Ends.Results
import ParserAlgebra.Proofs.Ends.Rows
import ParserAlgebra.Proofs.Ends.Yields
import ParserAlgebra.Proofs.Ensures
import ParserAlgebra.Proofs.Factoring
import ParserAlgebra.Proofs.Finds
import ParserAlgebra.Proofs.Finds.General
import ParserAlgebra.Proofs.Finds.Positions
import ParserAlgebra.Proofs.Folds
import ParserAlgebra.Proofs.Grouping
import ParserAlgebra.Proofs.Guarded
import ParserAlgebra.Proofs.Guarded.Steps
import ParserAlgebra.Proofs.Guarded.Stream
import ParserAlgebra.Proofs.Holds
import ParserAlgebra.Proofs.Log
import ParserAlgebra.Proofs.Log.Cut
import ParserAlgebra.Proofs.Log.Invocation
import ParserAlgebra.Proofs.Log.Shows
import ParserAlgebra.Proofs.Log.Watch
import ParserAlgebra.Proofs.Nesting
import ParserAlgebra.Proofs.Numerals
import ParserAlgebra.Proofs.Numerals.Longest
import ParserAlgebra.Proofs.OneOf
import ParserAlgebra.Proofs.Onward
import ParserAlgebra.Proofs.Operators
import ParserAlgebra.Proofs.Operators.Interchangeable
import ParserAlgebra.Proofs.Operators.Regions
import ParserAlgebra.Proofs.Remaining
import ParserAlgebra.Proofs.Remaining.SideBySide
import ParserAlgebra.Proofs.Repetition
import ParserAlgebra.Proofs.Restriction
import ParserAlgebra.Proofs.Selection
import ParserAlgebra.Proofs.Selection.Checked
import ParserAlgebra.Proofs.Selection.Composition
import ParserAlgebra.Proofs.Separated
import ParserAlgebra.Proofs.Streak
import ParserAlgebra.Proofs.Unwrapped
import ParserAlgebra.Proofs.WellShaped
import ParserAlgebra.Proofs.Whitespace
import ParserAlgebra.Proofs.Words
import ParserAlgebra.Report
import ParserAlgebra.Run
import ParserAlgebra.Script
import ParserAlgebra.Script.Answerable
import ParserAlgebra.Script.Data
import ParserAlgebra.Script.Expression
import ParserAlgebra.Script.Grammar
import ParserAlgebra.Script.Session
import ParserAlgebra.Text.CharSet
import ParserAlgebra.Text.Printable
import ParserAlgebra.Text.Quoted
import ParserAlgebra.Value
import ParserAlgebra.Value.Elements
import ParserAlgebra.Value.Equality
import ParserAlgebra.Value.Fields
import ParserAlgebra.Value.Numbering
import ParserAlgebra.Value.Operators
import ParserAlgebra.Value.Printer
import ParserAlgebra.Value.Shape
