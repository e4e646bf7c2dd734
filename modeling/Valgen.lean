import Valgen.Assoc
import Valgen.Code.Emit
import Valgen.Code.Module
import Valgen.Command.Arguments
import Valgen.Command.Run
import Valgen.Compile.Composition
import Valgen.Compile.Context
import Valgen.Compile.Document
import Valgen.Compile.Literal
import Valgen.Compile.Primitive
import Valgen.Compile.Recipe
import Valgen.Compile.Select
import Valgen.Compile.Session
import Valgen.Compile.Shape
import Valgen.Error
import Valgen.Files
import Valgen.Files.Tree
import Valgen.Json.Basic
import Valgen.Json.Printer
import Valgen.Json.Reader
import Valgen.Main
import Valgen.Manifest
import Valgen.Name
import Valgen.Number.Binary64
import Valgen.Number.Shortest
import Valgen.Options
import Valgen.Path
import Valgen.Path.Pattern
import Valgen.Project.Compile
import Valgen.Project.Graph
import Valgen.Project.Output
import Valgen.Project.Registry
import Valgen.Proofs.Code.Scope
import Valgen.Proofs.Code.Specifiers
import Valgen.Proofs.Code.Standalone
import Valgen.Proofs.Compile.Alignment
import Valgen.Proofs.Compile.Closed
import Valgen.Proofs.Compile.Coverage
import Valgen.Proofs.Compile.DefaultErasure
import Valgen.Proofs.Compile.Defaults
import Valgen.Proofs.Compile.Failures
import Valgen.Proofs.Compile.Forcing
import Valgen.Proofs.Compile.Inlining
import Valgen.Proofs.Compile.Intersections
import Valgen.Proofs.Compile.Invariants
import Valgen.Proofs.Compile.Nesting
import Valgen.Proofs.Compile.Results
import Valgen.Proofs.Compile.Runs
import Valgen.Proofs.Compile.Sessions
import Valgen.Proofs.Files.Walks
import Valgen.Proofs.Graph.Basic
import Valgen.Proofs.Graph.Cycles
import Valgen.Proofs.Graph.Order
import Valgen.Proofs.Meaning.Acceptance
import Valgen.Proofs.Meaning.Preservation
import Valgen.Proofs.Meaning.Validity
import Valgen.Proofs.Name
import Valgen.Proofs.Path.Cuts
import Valgen.Proofs.Project.Arrangement
import Valgen.Proofs.Project.Consistency
import Valgen.Proofs.Project.Deferral
import Valgen.Proofs.Project.Definitions
import Valgen.Proofs.Project.Evolution
import Valgen.Proofs.Project.Exports
import Valgen.Proofs.Project.Guard
import Valgen.Proofs.Project.HiddenDefaults
import Valgen.Proofs.Project.History
import Valgen.Proofs.Project.Imports
import Valgen.Proofs.Project.Isolation
import Valgen.Proofs.Project.Loading
import Valgen.Proofs.Project.Outcome
import Valgen.Proofs.Project.Precedence
import Valgen.Proofs.Project.Reached
import Valgen.Proofs.Project.Records
import Valgen.Proofs.Project.References
import Valgen.Proofs.Project.Registration
import Valgen.Proofs.Project.Requirements
import Valgen.Proofs.Project.Runs
import Valgen.Proofs.Project.Single
import Valgen.Proofs.Project.Termination
import Valgen.Proofs.Project.Work
import Valgen.Proofs.Schema.Alike
import Valgen.Proofs.Schema.Distinct
import Valgen.Proofs.Schema.Erasure
import Valgen.Proofs.Schema.Expansion
import Valgen.Proofs.Schema.Places
import Valgen.Proofs.Schema.Pointers
import Valgen.Proofs.Schema.Subschemas
import Valgen.Proofs.Text.Comments
import Valgen.Proofs.Text.Lexer
import Valgen.Proofs.Text.Literals
import Valgen.Proofs.Text.Margins
import Valgen.Proofs.Text.ObjectLiteral
import Valgen.Proofs.Text.Split
import Valgen.Proofs.Validator.Depths
import Valgen.Proofs.Validator.Keys
import Valgen.Proofs.Validator.Markers
import Valgen.Proofs.Validator.Parts
import Valgen.Proofs.Validator.Plain
import Valgen.Proofs.Validator.Returns
import Valgen.Proofs.Validator.Shapes
import Valgen.Proofs.Validator.Texts
import Valgen.Proofs.Validator.Verdicts
import Valgen.Proofs.Validator.WellFormed
import Valgen.Rule
import Valgen.Schema.Decode
import Valgen.Schema.Node
import Valgen.Schema.Pointer
import Valgen.Schema.Reference
import Valgen.Schema.Source
import Valgen.Text.Blank
import Valgen.Text.CallChain
import Valgen.Text.Hidden
import Valgen.Text.Lines
import Valgen.Text.Quoted
import Valgen.Text.Split
import Valgen.Text.Visible
import Valgen.Toml.Reader
import Valgen.Toml.Scalar
import Valgen.Toml.Value
import Valgen.Validator.Basic
import Valgen.Validator.Render
import Valgen.Proofs.Validator.Comments
import Valgen.Proofs.Schema.UnknownMembers
import Valgen.Proofs.Compile.Dialects
import Valgen.Proofs.Code.Quotation
import Valgen.Proofs.Path.Spelling
import Valgen.Proofs.Text.Quoted
import Valgen.Proofs.Text.Offsets
import Valgen.Proofs.Schema.Agreement
import Valgen.Proofs.Schema.Tuples
