import EcmaPhp.Builtin.Classify
import EcmaPhp.Builtin.Replacement
import EcmaPhp.Builtin.Table
import EcmaPhp.Builtin.View
import EcmaPhp.CommandLine.Arguments
import EcmaPhp.CommandLine.Folder
import EcmaPhp.CommandLine.Run
import EcmaPhp.Comment
import EcmaPhp.Emit.Call
import EcmaPhp.Emit.Capture
import EcmaPhp.Emit.Class
import EcmaPhp.Emit.Declaration
import EcmaPhp.Emit.FieldComments
import EcmaPhp.Emit.Function
import EcmaPhp.Emit.Layout
import EcmaPhp.Emit.Literal
import EcmaPhp.Emit.Module
import EcmaPhp.Emit.Monad
import EcmaPhp.Emit.Name
import EcmaPhp.Emit.Operator
import EcmaPhp.Emit.Rules
import EcmaPhp.Emit.Script
import EcmaPhp.Emit.State
import EcmaPhp.Emit.Statement
import EcmaPhp.Event
import EcmaPhp.Failure
import EcmaPhp.Literal.ClassName
import EcmaPhp.Literal.DoubleQuoted
import EcmaPhp.Literal.Regex
import EcmaPhp.Main
import EcmaPhp.Options
import EcmaPhp.Output.Basic
import EcmaPhp.Output.Boundary
import EcmaPhp.Output.Chunks
import EcmaPhp.Output.Comments
import EcmaPhp.Output.Lines
import EcmaPhp.Output.Points
import EcmaPhp.Output.Terminator
import EcmaPhp.Program
import EcmaPhp.Proofs.Builtin.Operands
import EcmaPhp.Proofs.Builtin.Placed
import EcmaPhp.Proofs.Builtin.Purity
import EcmaPhp.Proofs.Captures
import EcmaPhp.Proofs.Operators
import EcmaPhp.Proofs.Output.Draft
import EcmaPhp.Proofs.Output.Ending
import EcmaPhp.Proofs.Output.Insertion
import EcmaPhp.Proofs.Output.LineCount
import EcmaPhp.Proofs.Output.Operation
import EcmaPhp.Proofs.Output.Pieces
import EcmaPhp.Proofs.Output.PointStack
import EcmaPhp.Proofs.Output.Revision
import EcmaPhp.Proofs.Output.Sketch
import EcmaPhp.Proofs.Output.SourceLine
import EcmaPhp.Proofs.Output.Text
import EcmaPhp.Proofs.Output.Writing
import EcmaPhp.Proofs.Parentheses
import EcmaPhp.Proofs.Php.Expression
import EcmaPhp.Proofs.Php.Spelling
import EcmaPhp.Proofs.References
import EcmaPhp.Proofs.Refusals
import EcmaPhp.Proofs.Scope.Closed
import EcmaPhp.Proofs.Scope.Evolution
import EcmaPhp.Proofs.Scope.Registry
import EcmaPhp.Proofs.Scope.Resolution
import EcmaPhp.Proofs.Script.Balance
import EcmaPhp.Proofs.Script.Placement
import EcmaPhp.Proofs.Script.References
import EcmaPhp.Proofs.Script.Scopes
import EcmaPhp.Proofs.Script.Soundness
import EcmaPhp.Proofs.Script.Steps
import EcmaPhp.Proofs.Script.Written
import EcmaPhp.Proofs.Soundness.Basic
import EcmaPhp.Proofs.Soundness.Expression
import EcmaPhp.Proofs.Soundness.Function
import EcmaPhp.Proofs.Soundness.Statement
import EcmaPhp.Proofs.Source.Leaves
import EcmaPhp.Proofs.Source.Neighbours
import EcmaPhp.Proofs.Splices
import EcmaPhp.Proofs.Tree.Adaptation
import EcmaPhp.Proofs.Tree.Complete
import EcmaPhp.Proofs.Tree.OfConcrete
import EcmaPhp.Scope.Basic
import EcmaPhp.Scope.Bindings
import EcmaPhp.Scope.Chain
import EcmaPhp.Source.Concrete
import EcmaPhp.Source.Location
import EcmaPhp.Source.Tokens
import EcmaPhp.Source.TreeText
import EcmaPhp.Text.Digit
import EcmaPhp.Text.Hex
import EcmaPhp.Text.JsonString
import EcmaPhp.Text.LineEnds
import EcmaPhp.Text.Printable
import EcmaPhp.Text.Quoted
import EcmaPhp.Text.Split
import EcmaPhp.Text.Uppercase
import EcmaPhp.Text.Utf8
import EcmaPhp.Tree.Field
import EcmaPhp.Tree.Kind
import EcmaPhp.Tree.Node
import EcmaPhp.Tree.OfConcrete
import EcmaPhp.Tree.Outline
import EcmaPhp.Tree.Place
import EcmaPhp.Proofs.Budget.Tariff
import EcmaPhp.Proofs.Script.Alike
import EcmaPhp.Proofs.Budget.Basic
import EcmaPhp.Proofs.Budget.Expression
import EcmaPhp.Proofs.Budget.Function
import EcmaPhp.Proofs.Budget.Statement
import EcmaPhp.Proofs.ArrayStyle
import EcmaPhp.Proofs.Builtin.Evaluation
import EcmaPhp.Proofs.Rewriting
import EcmaPhp.Proofs.Output.Fixed
import EcmaPhp.Proofs.Script.Invariant
import EcmaPhp.Proofs.Output.Comments
import EcmaPhp.Proofs.Script.Writings
import EcmaPhp.Proofs.Budget.Learning
import EcmaPhp.Proofs.Promotion
import EcmaPhp.Proofs.Comments
import EcmaPhp.Proofs.Php.StringLiteral
import EcmaPhp.Proofs.Literal.StringValue
import EcmaPhp.Proofs.Interpolation
import EcmaPhp.Proofs.Script.Frames
import EcmaPhp.Proofs.Visits
import EcmaPhp.Proofs.Script.Jumps
import EcmaPhp.Proofs.Constructs
import EcmaPhp.Proofs.Tree.Sites
import EcmaPhp.Proofs.Jumps
import EcmaPhp.Proofs.Output.Ink
import EcmaPhp.Proofs.Script.Inks
import EcmaPhp.Proofs.LastWords
import EcmaPhp.Proofs.Terminators
import EcmaPhp.Proofs.Source.Enclosure
import EcmaPhp.Proofs.Literal.Verbatim
import EcmaPhp.Proofs.Shorthand
import EcmaPhp.Proofs.Literal.NameSpelling
import EcmaPhp.Proofs.Literal.NumberValue
import EcmaPhp.Proofs.Accessors
import EcmaPhp.Proofs.Names
import EcmaPhp.Proofs.Declarations
import EcmaPhp.Proofs.HiddenAccessors
import EcmaPhp.Proofs.Settings
import EcmaPhp.Proofs.Scope.Targets
import EcmaPhp.Proofs.Builtin.WriteTargets
import EcmaPhp.Proofs.ArraySeats
import EcmaPhp.Proofs.Literal.RegexPattern
import EcmaPhp.Proofs.Literal.WideEscapes
import EcmaPhp.Proofs.Literal.ClassPath
import EcmaPhp.Proofs.CommentReflow
import EcmaPhp.Proofs.Source.DocumentOrder
import EcmaPhp.Proofs.Output.Window
import EcmaPhp.Proofs.Php.Comment
import EcmaPhp.Proofs.CommentReading
