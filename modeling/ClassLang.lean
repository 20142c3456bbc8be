import ClassLang.Assembly
import ClassLang.Assembly.Read
import ClassLang.Assembly.Render
import ClassLang.Command.FileSystem
import ClassLang.Command.Options
import ClassLang.Command.Run
import ClassLang.Command.Services
import ClassLang.Compile
import ClassLang.Expr
import ClassLang.Expr.Describe
import ClassLang.Fault
import ClassLang.Grammar.Cursor
import ClassLang.Grammar.Expr
import ClassLang.Grammar.Program
import ClassLang.Hierarchy
import ClassLang.Journal
import ClassLang.Layout.Frame
import ClassLang.Layout.Object
import ClassLang.Layout.Word
import ClassLang.Layouts
import ClassLang.Lowering.Expr
import ClassLang.Lowering.Program
import ClassLang.Lowering.Stmt
import ClassLang.Main
import ClassLang.Proofs.Grammar.Kept
import ClassLang.Proofs.Grammar.Bare
import ClassLang.Proofs.Layout.Frames
import ClassLang.Proofs.Layout.Heap
import ClassLang.Proofs.Layout.Objects
import ClassLang.Proofs.Layout.Paths
import ClassLang.Proofs.Layout.Regular
import ClassLang.Proofs.Layout.Remembered
import ClassLang.Proofs.Lowering.Names
import ClassLang.Proofs.Lowering.Run
import ClassLang.Proofs.Lowering.Serving
import ClassLang.Proofs.Lowering.Sites
import ClassLang.Proofs.Lowering.Total
import ClassLang.Proofs.Machine.Code
import ClassLang.Proofs.Machine.Memory
import ClassLang.Proofs.Machine.Step
import ClassLang.Proofs.Meaning.Cleared
import ClassLang.Proofs.Meaning.Linked
import ClassLang.Proofs.Meaning.Program
import ClassLang.Proofs.Meaning.Sound
import ClassLang.Proofs.Meaning.Store
import ClassLang.Proofs.Meaning.Typed
import ClassLang.Proofs.Sequence
import ClassLang.Proofs.Simulation.Relation
import ClassLang.Proofs.Typing.Bindings
import ClassLang.Proofs.Typing.Declare
import ClassLang.Proofs.Typing.Erase
import ClassLang.Proofs.Typing.Expr
import ClassLang.Proofs.Typing.Interface
import ClassLang.Proofs.Typing.Places
import ClassLang.Proofs.Typing.Program
import ClassLang.Proofs.Typing.Reflect
import ClassLang.Proofs.Typing.Rules
import ClassLang.Proofs.Typing.Stmt
import ClassLang.Proofs.Typing.Yields
import ClassLang.Scope
import ClassLang.Syntax
import ClassLang.Text.Blank
import ClassLang.Text.Printable
import ClassLang.Text.Quoted
import ClassLang.Token
import ClassLang.Token.Scan
import ClassLang.Ty
import ClassLang.Typing.Expr
import ClassLang.Typing.Outcome
import ClassLang.Typing.Program
import ClassLang.Typing.Stmt
import ClassLang.Typing.Tables
import ClassLang.Proofs.Machine.Idioms
import ClassLang.Proofs.Machine.Stores
import ClassLang.Proofs.Machine.Routines
import ClassLang.Proofs.Simulation.Stage
import ClassLang.Proofs.Simulation.Expr
import ClassLang.Proofs.Simulation.Assign
import ClassLang.Proofs.Simulation.Stmt
import ClassLang.Proofs.Simulation.Method
import ClassLang.Proofs.Lowering.Labels
import ClassLang.Proofs.Lowering.Listing
import ClassLang.Proofs.Lowering.Calls
import ClassLang.Proofs.Lowering.Flow
import ClassLang.Proofs.Lowering.Apart
import ClassLang.Proofs.Simulation.Program
import ClassLang.Proofs.Simulation.Copies
import ClassLang.Proofs.Grammar.Agree
import ClassLang.Proofs.Grammar.Expr
import ClassLang.Proofs.Grammar.Program
import ClassLang.Proofs.Token.Lexemes
import ClassLang.Proofs.Token.Splitting
import ClassLang.Proofs.Token.Spelling
import ClassLang.Proofs.Token.Trailing
import ClassLang.Proofs.Layout.Requests
import ClassLang.Proofs.Layout.Geometry
import ClassLang.Proofs.Layout.Parts
import ClassLang.Proofs.Grammar.Local
import ClassLang.Proofs.Grammar.Lookahead
import ClassLang.Proofs.Grammar.Viable
import ClassLang.Proofs.Grammar.Errors
import ClassLang.Proofs.Grammar.Longest
import ClassLang.Proofs.Grammar.Lines
import ClassLang.Proofs.Grammar.Recording
import ClassLang.Proofs.Simulation.Determined
import ClassLang.Proofs.Typing.Recorded
import ClassLang.Proofs.Typing.Annotated
import ClassLang.Proofs.Lowering.Depth
import ClassLang.Proofs.Lowering.Discipline
import ClassLang.Proofs.Lowering.Operands
import ClassLang.Proofs.Simulation.Convention
import ClassLang.Proofs.Typing.Contract
import ClassLang.Proofs.Grammar.Identifiers
import ClassLang.Proofs.Command.Lines
import ClassLang.Proofs.Command.Services
import ClassLang.Proofs.Command.FileSystem
import ClassLang.Proofs.Command.AllOrNothing
import ClassLang.Proofs.Layout.Sizes
import ClassLang.Proofs.Typing.Inheritance
import ClassLang.Proofs.Scopes.History
import ClassLang.Proofs.Scopes.Nesting
import ClassLang.Proofs.Scopes.Lines
import ClassLang.Proofs.Scopes.Listing
import ClassLang.Proofs.Typing.Rendered
import ClassLang.Proofs.Typing.Partial
import ClassLang.Proofs.Typing.Rechecking
import ClassLang.Proofs.Typing.Holes
import ClassLang.Proofs.Typing.Unique
import ClassLang.Proofs.Typing.Subsumption
import ClassLang.Proofs.Lowering.Shift
import ClassLang.Proofs.Lowering.Pieces
import ClassLang.Proofs.Lowering.Relabel
import ClassLang.Proofs.Lowering.Reading
import ClassLang.Proofs.Lowering.Loading
import ClassLang.Proofs.Lowering.Again
