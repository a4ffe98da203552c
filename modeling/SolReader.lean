import SolReader.Ast.Assembly
import SolReader.Ast.Build
import SolReader.Ast.Commas
import SolReader.Ast.Definitions
import SolReader.Ast.Display
import SolReader.Ast.Expressions
import SolReader.Ast.Fault
import SolReader.Ast.Part
import SolReader.Ast.Pretty
import SolReader.Ast.Statements
import SolReader.Ast.Types
import SolReader.Ast.Value
import SolReader.Ast.Visit
import SolReader.Command
import SolReader.Diagnostic
import SolReader.Grammar.Body
import SolReader.Grammar.Form
import SolReader.Grammar.Labelled
import SolReader.Grammar.Member
import SolReader.Grammar.Next
import SolReader.Grammar.Rule
import SolReader.Kind
import SolReader.KindSet
import SolReader.Main
import SolReader.Outline
import SolReader.Outline.Contract
import SolReader.Outline.Member
import SolReader.Outline.Report
import SolReader.Outline.Table
import SolReader.Parse.Recovery
import SolReader.Parse.State
import SolReader.Parse.Step
import SolReader.Prediction.Config
import SolReader.Prediction.Decision
import SolReader.Prediction.Forecast
import SolReader.Prediction.Reach
import SolReader.Prediction.Stacks
import SolReader.Proofs.Grammar.Place
import SolReader.Proofs.Grammar.Reach
import SolReader.Proofs.KindSet
import SolReader.Proofs.Parse.Choice
import SolReader.Proofs.Parse.Effect
import SolReader.Proofs.Parse.Operation
import SolReader.Proofs.Parse.Recovery
import SolReader.Proofs.Prediction.Decision
import SolReader.Proofs.Prediction.Option
import SolReader.Proofs.Token.Spelling
import SolReader.Session
import SolReader.Session.Path
import SolReader.Source
import SolReader.Text.Blank
import SolReader.Text.Pattern
import SolReader.Text.Printable
import SolReader.Text.Quoted
import SolReader.Token
import SolReader.Token.Lexicon
import SolReader.Token.Scan
import SolReader.Tree
import SolReader.Tree.Events
import SolReader.Tree.Members
import SolReader.Tree.Visit
import SolReader.Proofs.Parse.Run
import SolReader.Proofs.Parse.Leaves
import SolReader.Proofs.Parse.Leftover
import SolReader.Proofs.Parse.Ending
import SolReader.Proofs.Grammar.Descent
import SolReader.Proofs.Grammar.Effort
import SolReader.Proofs.Parse.Halting
import SolReader.Proofs.Reading.Leaves
import SolReader.Proofs.Grammar.Derivation
import SolReader.Proofs.Parse.Soundness
import SolReader.Proofs.Parse.Outcome
import SolReader.Proofs.Grammar.Count
import SolReader.Proofs.Ast.Asking
import SolReader.Proofs.Ast.Known
import SolReader.Proofs.Ast.Types
import SolReader.Proofs.Ast.Definitions
import SolReader.Proofs.Ast.Assembly
import SolReader.Proofs.Ast.Commas
import SolReader.Proofs.Ast.Statements
import SolReader.Proofs.Ast.Expressions
import SolReader.Proofs.Ast.Faults
import SolReader.Proofs.Ast.Unparse
import SolReader.Proofs.Ast.Wording
import SolReader.Proofs.Ast.Faithful
import SolReader.Proofs.Token.Tiling
import SolReader.Proofs.Ast.Twins
import SolReader.Proofs.Ast.Alike
import SolReader.Proofs.Ast.Nodes
import SolReader.Proofs.Parse.Span
import SolReader.Proofs.Ast.Locations
import SolReader.Proofs.Ast.Nesting
import SolReader.Proofs.Parse.Fitted
import SolReader.Proofs.Ast.Shapes
import SolReader.Proofs.Outline.Trace
import SolReader.Proofs.Outline.Members
import SolReader.Proofs.Outline.Sketch
import SolReader.Proofs.Grammar.Source
import SolReader.Proofs.Parse.Last
import SolReader.Proofs.Reading.Definitions
import SolReader.Proofs.Outline.Report
import SolReader.Proofs.Ast.Plain
import SolReader.Proofs.Outline.Visit
import SolReader.Proofs.Token.Language
import SolReader.Proofs.Token.Longest
import SolReader.Proofs.Grammar.Front
import SolReader.Proofs.Parse.Stack
import SolReader.Proofs.Parse.Onward
import SolReader.Proofs.Parse.Rounds
import SolReader.Proofs.Session.Isolation
import SolReader.Proofs.Grammar.Leading
import SolReader.Proofs.Prediction.Reading
import SolReader.Proofs.Prediction.Stacks
import SolReader.Proofs.Prediction.Ways
import SolReader.Proofs.Prediction.Foresight
import SolReader.Proofs.Prediction.Outward
import SolReader.Proofs.Prediction.Glance
import SolReader.Proofs.Prediction.Todo
import SolReader.Proofs.Grammar.Phrases
import SolReader.Proofs.Parse.Frames
import SolReader.Proofs.Parse.Completeness
import SolReader.Proofs.Prediction.Seam
import SolReader.Proofs.Grammar.Binding
import SolReader.Proofs.Parse.Clean
import SolReader.Proofs.Parse.Precedence
import SolReader.Proofs.Ast.Operators
import SolReader.Proofs.Outline.Tables
import SolReader.Proofs.Outline.Names
import SolReader.Proofs.Outline.Callables
import SolReader.Proofs.Outline.Sources
import SolReader.Proofs.Outline.StateVars
import SolReader.Proofs.Grammar.Starts
import SolReader.Proofs.Ast.Slots
import SolReader.Proofs.Outline.Carried
import SolReader.Proofs.Outline.Locals
import SolReader.Proofs.Token.Fragments
import SolReader.Proofs.Ast.Literals
import SolReader.Proofs.Grammar.Rows
import SolReader.Proofs.Ast.Imports
import SolReader.Proofs.Ast.Naming
import SolReader.Proofs.Outline.Loose
import SolReader.Proofs.Outline.Blocks
import SolReader.Proofs.Reading.Traversals
import SolReader.Proofs.Reading.Files
import SolReader.Proofs.Ast.Postfix
import SolReader.Proofs.Ast.Arguments
import SolReader.Proofs.Ast.Entries
import SolReader.Proofs.Parse.Dangling
import SolReader.Proofs.Ast.Branches
import SolReader.Proofs.Ast.Joined
import SolReader.Proofs.Token.Blanks
import SolReader.Proofs.Token.Respacing
import SolReader.Proofs.Parse.Loose
import SolReader.Proofs.Ast.Layout
