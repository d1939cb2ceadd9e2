import ApiWorkbench.Check.Brackets
import ApiWorkbench.Check.Files
import ApiWorkbench.Check.Requirement
import ApiWorkbench.Command.Basic
import ApiWorkbench.Command.Kind
import ApiWorkbench.Command.Reader
import ApiWorkbench.Command.Writer
import ApiWorkbench.CommandLine.Arguments
import ApiWorkbench.CommandLine.FileTree
import ApiWorkbench.CommandLine.Help
import ApiWorkbench.CommandLine.Path
import ApiWorkbench.CommandLine.Report
import ApiWorkbench.CommandLine.Request
import ApiWorkbench.Decimal.Binary64
import ApiWorkbench.Decimal.Notation
import ApiWorkbench.Decimal.Reading
import ApiWorkbench.Document.Completion
import ApiWorkbench.Document.Export
import ApiWorkbench.Document.Import
import ApiWorkbench.Document.Operation
import ApiWorkbench.Document.Parameter
import ApiWorkbench.Document.Pruning
import ApiWorkbench.Document.Sample
import ApiWorkbench.Document.Sharing
import ApiWorkbench.Document.Template
import ApiWorkbench.Editor.Components
import ApiWorkbench.Editor.Edit
import ApiWorkbench.Editor.Paths
import ApiWorkbench.Editor.Servers
import ApiWorkbench.Editor.Session
import ApiWorkbench.Editor.State
import ApiWorkbench.Editor.Store
import ApiWorkbench.Json.Reader
import ApiWorkbench.Json.Writer
import ApiWorkbench.Main
import ApiWorkbench.Proofs.Check.RequirementLines
import ApiWorkbench.Proofs.Command.RoundTrip
import ApiWorkbench.Proofs.CommandLine.Exports
import ApiWorkbench.Proofs.CommandLine.FailedRuns
import ApiWorkbench.Proofs.CommandLine.FileTrees
import ApiWorkbench.Proofs.CommandLine.Places
import ApiWorkbench.Proofs.CommandLine.Restoring
import ApiWorkbench.Proofs.Digits
import ApiWorkbench.Proofs.Document.Completable
import ApiWorkbench.Proofs.Document.CompleteParts
import ApiWorkbench.Proofs.Document.Completeness
import ApiWorkbench.Proofs.Document.CompletionFrame
import ApiWorkbench.Proofs.Document.Dropping
import ApiWorkbench.Proofs.Document.EditedPlaces
import ApiWorkbench.Proofs.Document.EveryDepth
import ApiWorkbench.Proofs.Document.Exported
import ApiWorkbench.Proofs.Document.Filling
import ApiWorkbench.Proofs.Document.ImportFaults
import ApiWorkbench.Proofs.Document.OperationPlaces
import ApiWorkbench.Proofs.Document.Prunable
import ApiWorkbench.Proofs.Document.Pruned
import ApiWorkbench.Proofs.Document.PrunedParts
import ApiWorkbench.Proofs.Document.PruningFrame
import ApiWorkbench.Proofs.Document.Reexport
import ApiWorkbench.Proofs.Document.ShapeKept
import ApiWorkbench.Proofs.Document.SharedParameters
import ApiWorkbench.Proofs.Document.Sharing
import ApiWorkbench.Proofs.Document.Stripped
import ApiWorkbench.Proofs.Document.TextNames
import ApiWorkbench.Proofs.Editor.Additions
import ApiWorkbench.Proofs.Editor.Addresses
import ApiWorkbench.Proofs.Editor.Canonical
import ApiWorkbench.Proofs.Editor.ComponentEdits
import ApiWorkbench.Proofs.Editor.Edit
import ApiWorkbench.Proofs.Editor.Editable
import ApiWorkbench.Proofs.Editor.EntryEdits
import ApiWorkbench.Proofs.Editor.FailedSaves
import ApiWorkbench.Proofs.Editor.GlobalSecurity
import ApiWorkbench.Proofs.Editor.Locality
import ApiWorkbench.Proofs.Editor.Missing
import ApiWorkbench.Proofs.Editor.OperationEdits
import ApiWorkbench.Proofs.Editor.OperationMoves
import ApiWorkbench.Proofs.Editor.OperationRequirements
import ApiWorkbench.Proofs.Editor.OperationsApart
import ApiWorkbench.Proofs.Editor.PathItems
import ApiWorkbench.Proofs.Editor.Renaming
import ApiWorkbench.Proofs.Editor.Replacing
import ApiWorkbench.Proofs.Editor.Requirements
import ApiWorkbench.Proofs.Editor.Safety
import ApiWorkbench.Proofs.Editor.SchemeEdits
import ApiWorkbench.Proofs.Editor.Scripts
import ApiWorkbench.Proofs.Editor.Sections
import ApiWorkbench.Proofs.Editor.Sessions
import ApiWorkbench.Proofs.Editor.Snapshots
import ApiWorkbench.Proofs.Editor.Stocked
import ApiWorkbench.Proofs.Editor.Usable
import ApiWorkbench.Proofs.Frame
import ApiWorkbench.Proofs.FreeNames
import ApiWorkbench.Proofs.Json.Atoms
import ApiWorkbench.Proofs.Json.Numbers
import ApiWorkbench.Proofs.Json.RoundTrip
import ApiWorkbench.Proofs.Json.Strings
import ApiWorkbench.Proofs.Letters
import ApiWorkbench.Proofs.Marks
import ApiWorkbench.Proofs.Members
import ApiWorkbench.Proofs.Names
import ApiWorkbench.Proofs.Reference.Agreement
import ApiWorkbench.Proofs.Reference.Expansion
import ApiWorkbench.Proofs.Reference.Locations
import ApiWorkbench.Proofs.Reference.Lookups
import ApiWorkbench.Proofs.Reference.Reachability
import ApiWorkbench.Proofs.Reference.Runs
import ApiWorkbench.Proofs.Reference.Spelling
import ApiWorkbench.Proofs.Reference.Trace
import ApiWorkbench.Proofs.Result
import ApiWorkbench.Proofs.Routes
import ApiWorkbench.Proofs.Server.Arguments
import ApiWorkbench.Proofs.Server.Completed
import ApiWorkbench.Proofs.Server.Handlers
import ApiWorkbench.Proofs.Server.Inputs
import ApiWorkbench.Proofs.Server.LiteralAtoms
import ApiWorkbench.Proofs.Server.Literals
import ApiWorkbench.Proofs.Server.Names
import ApiWorkbench.Proofs.Server.Phrases
import ApiWorkbench.Proofs.Server.Renderable
import ApiWorkbench.Proofs.Server.Repeats
import ApiWorkbench.Proofs.Server.SchemaGrammar
import ApiWorkbench.Proofs.Server.SchemaLiterals
import ApiWorkbench.Proofs.Server.SchemaTypes
import ApiWorkbench.Proofs.Server.SourceLines
import ApiWorkbench.Proofs.Server.ToolConfigs
import ApiWorkbench.Proofs.Server.ToolSteps
import ApiWorkbench.Proofs.Server.Tools
import ApiWorkbench.Proofs.Server.TypeGrammar
import ApiWorkbench.Proofs.Server.TypeSource
import ApiWorkbench.Proofs.Shape.Acceptance
import ApiWorkbench.Proofs.Shape.Parameters
import ApiWorkbench.Proofs.Swagger.Conversion
import ApiWorkbench.Proofs.Swagger.Convertible
import ApiWorkbench.Proofs.Swagger.Operations
import ApiWorkbench.Proofs.Swagger.Parameters
import ApiWorkbench.Proofs.Swagger.RelocatedSchemas
import ApiWorkbench.Proofs.Swagger.Responses
import ApiWorkbench.Proofs.Swagger.SchemaPositions
import ApiWorkbench.Proofs.TextParts
import ApiWorkbench.Proofs.Tree
import ApiWorkbench.Proofs.Writable
import ApiWorkbench.Proofs.Yaml.Arrival
import ApiWorkbench.Proofs.Yaml.Blocks
import ApiWorkbench.Proofs.Yaml.Composed
import ApiWorkbench.Proofs.Yaml.Cursor
import ApiWorkbench.Proofs.Yaml.DoubleQuoted
import ApiWorkbench.Proofs.Yaml.Escapes
import ApiWorkbench.Proofs.Yaml.Faults
import ApiWorkbench.Proofs.Yaml.Integers
import ApiWorkbench.Proofs.Yaml.NotJson
import ApiWorkbench.Proofs.Yaml.PlainText
import ApiWorkbench.Proofs.Yaml.Reread
import ApiWorkbench.Proofs.Yaml.ScalarText
import ApiWorkbench.Proofs.Yaml.SingleQuoted
import ApiWorkbench.Proofs.Yaml.Written
import ApiWorkbench.Reference.Expansion
import ApiWorkbench.Reference.Pointer
import ApiWorkbench.Server.Client
import ApiWorkbench.Server.Manual
import ApiWorkbench.Server.Name
import ApiWorkbench.Server.Program
import ApiWorkbench.Server.Scaffold
import ApiWorkbench.Server.SchemaType
import ApiWorkbench.Server.Tool
import ApiWorkbench.Server.TypeExpr
import ApiWorkbench.Shape.Basic
import ApiWorkbench.Shape.Conversion
import ApiWorkbench.Shape.Document
import ApiWorkbench.Shape.Problem
import ApiWorkbench.Swagger.Document
import ApiWorkbench.Swagger.Operation
import ApiWorkbench.Swagger.Schema
import ApiWorkbench.Text.Base64
import ApiWorkbench.Text.Blank
import ApiWorkbench.Text.CharSet
import ApiWorkbench.Text.Letter
import ApiWorkbench.Text.Percent
import ApiWorkbench.Text.Printable
import ApiWorkbench.Text.WordChar
import ApiWorkbench.Value.Anchor
import ApiWorkbench.Value.Basic
import ApiWorkbench.Value.Calendar
import ApiWorkbench.Value.Literal
import ApiWorkbench.Value.Members
import ApiWorkbench.Value.Reading
import ApiWorkbench.Value.Wrapped
import ApiWorkbench.Yaml.Block
import ApiWorkbench.Yaml.Cursor
import ApiWorkbench.Yaml.Lexer
import ApiWorkbench.Yaml.Node
import ApiWorkbench.Yaml.Plain
import ApiWorkbench.Yaml.Quoted
import ApiWorkbench.Yaml.Reader
import ApiWorkbench.Yaml.Resolution
import ApiWorkbench.Yaml.Scalar
import ApiWorkbench.Yaml.Survey
import ApiWorkbench.Yaml.Token
import ApiWorkbench.Yaml.Writer
