import Treewalk.Builtin.Basic
import Treewalk.Builtin.Call
import Treewalk.CommandLine
import Treewalk.Decimal.Reading
import Treewalk.Decimal.Shortest
import Treewalk.Digest
import Treewalk.Eval.Error
import Treewalk.Eval.Index
import Treewalk.Eval.Interpreter
import Treewalk.Eval.Operator
import Treewalk.Grammar.Cursor
import Treewalk.Grammar.Error
import Treewalk.Grammar.Parser
import Treewalk.Grammar.Precedence
import Treewalk.Main
import Treewalk.Number.Binary64
import Treewalk.Number.Word
import Treewalk.Program
import Treewalk.Proofs.Decimal.RoundTrip
import Treewalk.Proofs.Dialogue
import Treewalk.Proofs.Eval.Assignment
import Treewalk.Proofs.Eval.Chains
import Treewalk.Proofs.Eval.Checks
import Treewalk.Proofs.Eval.Closures
import Treewalk.Proofs.Eval.Confinement
import Treewalk.Proofs.Eval.Course
import Treewalk.Proofs.Eval.Effects
import Treewalk.Proofs.Eval.Errors
import Treewalk.Proofs.Eval.Extension
import Treewalk.Proofs.Eval.Framing
import Treewalk.Proofs.Eval.Guards
import Treewalk.Proofs.Eval.Hashes
import Treewalk.Proofs.Eval.Independence
import Treewalk.Proofs.Eval.Integers
import Treewalk.Proofs.Eval.Keys
import Treewalk.Proofs.Eval.Layering
import Treewalk.Proofs.Eval.Loops
import Treewalk.Proofs.Eval.Overflow
import Treewalk.Proofs.Eval.Ranges
import Treewalk.Proofs.Eval.Relations
import Treewalk.Proofs.Eval.Returns
import Treewalk.Proofs.Eval.Scopes
import Treewalk.Proofs.Eval.Slices
import Treewalk.Proofs.Eval.Soundness
import Treewalk.Proofs.Eval.Transcript
import Treewalk.Proofs.Eval.Unwrapping
import Treewalk.Proofs.Eval.Updates
import Treewalk.Proofs.Faults
import Treewalk.Proofs.Grammar.Acceptance
import Treewalk.Proofs.Grammar.Brackets
import Treewalk.Proofs.Grammar.Contradictions
import Treewalk.Proofs.Grammar.Derivation
import Treewalk.Proofs.Grammar.Diagnosis
import Treewalk.Proofs.Grammar.Grouping
import Treewalk.Proofs.Grammar.Joining
import Treewalk.Proofs.Grammar.Lossless
import Treewalk.Proofs.Grammar.Places
import Treewalk.Proofs.Grammar.Progress
import Treewalk.Proofs.Grammar.Reading
import Treewalk.Proofs.Grammar.Relations
import Treewalk.Proofs.Grammar.Reparsing
import Treewalk.Proofs.Grammar.Shapes
import Treewalk.Proofs.Grammar.Termination
import Treewalk.Proofs.Layout
import Treewalk.Proofs.Lines
import Treewalk.Proofs.Outcome
import Treewalk.Proofs.Store.Equality
import Treewalk.Proofs.Store.Evolution
import Treewalk.Proofs.Store.Nesting
import Treewalk.Proofs.Store.Soundness
import Treewalk.Proofs.Text.Order
import Treewalk.Proofs.Text.Splitting
import Treewalk.Proofs.Token.Columns
import Treewalk.Proofs.Token.Exactness
import Treewalk.Proofs.Token.Joining
import Treewalk.Proofs.Token.Lexeme
import Treewalk.Proofs.Token.Lexicon
import Treewalk.Proofs.Token.LongestMatch
import Treewalk.Proofs.Token.Numerals
import Treewalk.Proofs.Token.Tiling
import Treewalk.Proofs.Tree.Places
import Treewalk.Proofs.Tree.Plain
import Treewalk.Proofs.Value.Table
import Treewalk.Session
import Treewalk.Store.Basic
import Treewalk.Store.Equality
import Treewalk.Store.Show
import Treewalk.Text.Blank
import Treewalk.Text.Pieces
import Treewalk.Text.Printable
import Treewalk.Text.Quoted
import Treewalk.Token.Basic
import Treewalk.Token.Kind
import Treewalk.Token.Position
import Treewalk.Token.Scanner
import Treewalk.Tree.Basic
import Treewalk.Tree.Operator
import Treewalk.Tree.Printer
import Treewalk.Value.Basic
import Treewalk.Value.Key
import Treewalk.Value.Table
