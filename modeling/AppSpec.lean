import AppSpec.Catalogue
import AppSpec.Decimal.Binary64
import AppSpec.Decimal.Shortest
import AppSpec.Diagnostic
import AppSpec.Document.Graph
import AppSpec.Document.Positions
import AppSpec.Document.Validate
import AppSpec.Failure
import AppSpec.Graph.Basic
import AppSpec.Json.Fault
import AppSpec.Json.Reader
import AppSpec.Json.Text
import AppSpec.Layer.Access
import AppSpec.Layer.Basic
import AppSpec.Layer.Collection
import AppSpec.Layer.Components
import AppSpec.Layer.Domain
import AppSpec.Layer.Load
import AppSpec.Layer.Logic
import AppSpec.Layer.Mapping
import AppSpec.Layer.Workflow
import AppSpec.Members
import AppSpec.Model.Behaviour
import AppSpec.Model.Document
import AppSpec.Model.Domain
import AppSpec.Model.Reference
import AppSpec.Model.Structure
import AppSpec.Named
import AppSpec.Namespace
import AppSpec.Path
import AppSpec.Reference.Relationships
import AppSpec.Reference.Resolve
import AppSpec.Settings.Basic
import AppSpec.Settings.Logging
import AppSpec.Shape
import AppSpec.Source.Advice
import AppSpec.Source.Format
import AppSpec.Source.Parse
import AppSpec.SymbolTable
import AppSpec.Text.Balanced
import AppSpec.Text.Base64
import AppSpec.Text.Blank
import AppSpec.Text.Digit
import AppSpec.Text.Printable
import AppSpec.Text.Quoted
import AppSpec.Text.Search
import AppSpec.Text.Similar
import AppSpec.Text.Utf8
import AppSpec.TypeExpr.Basic
import AppSpec.TypeExpr.Fault
import AppSpec.TypeExpr.Literal
import AppSpec.TypeExpr.Parser
import AppSpec.TypeExpr.Printer
import AppSpec.Value.Basic
import AppSpec.Value.Integer
import AppSpec.Value.Moment
import AppSpec.Yaml.Cursor
import AppSpec.Yaml.Fault
import AppSpec.Yaml.Load
import AppSpec.Yaml.Moment
import AppSpec.Yaml.Node.Basic
import AppSpec.Yaml.Node.Read
import AppSpec.Yaml.Number
import AppSpec.Yaml.Positions
import AppSpec.Yaml.Scalar
import AppSpec.Yaml.Tag
import AppSpec.Yaml.Token
import AppSpec.Yaml.Token.Property
import AppSpec.Yaml.Token.Scalar
import AppSpec.Yaml.Token.Stream
import AppSpec.Yaml.Value
import AppSpec.Proofs.Decimal.Binary64
import AppSpec.Proofs.Document.Integrity
import AppSpec.Proofs.Decimal.Nearest
import AppSpec.Proofs.Decimal.ReadBack
import AppSpec.Proofs.Decimal.Shortest
import AppSpec.Proofs.Graph.Build
import AppSpec.Proofs.Graph.Cycle
import AppSpec.Proofs.Graph.Cycles
import AppSpec.Proofs.Graph.Search
import AppSpec.Proofs.Named
import AppSpec.Proofs.Outcome
import AppSpec.Proofs.Text.Digit
import AppSpec.Proofs.TypeExpr.Atom
import AppSpec.Proofs.TypeExpr.Block
import AppSpec.Proofs.TypeExpr.Canonical
import AppSpec.Proofs.TypeExpr.Domain
import AppSpec.Proofs.TypeExpr.Form
import AppSpec.Proofs.TypeExpr.Invariant
import AppSpec.Proofs.TypeExpr.Literal
import AppSpec.Proofs.TypeExpr.LiteralText
import AppSpec.Proofs.TypeExpr.RoundTrip
import AppSpec.Proofs.TypeExpr.Suffix
import AppSpec.Proofs.Reference.Mention
import AppSpec.Proofs.Layer.Deferral
import AppSpec.Proofs.Layer.Steps
import AppSpec.Proofs.Layer.Items
import AppSpec.Proofs.Layer.Declared
import AppSpec.Proofs.Layer.Layers
import AppSpec.Proofs.SymbolTable
import AppSpec.Proofs.TypeExpr.Prefix
import AppSpec.Proofs.TypeExpr.Tracks
import AppSpec.Proofs.TypeExpr.Extension
import AppSpec.Proofs.TypeExpr.Message
import AppSpec.Proofs.Layer.ItemFault
import AppSpec.Proofs.Layer.Behaves
import AppSpec.Proofs.Layer.ItemBehaves
import AppSpec.Proofs.Layer.StepBehaves
import AppSpec.Proofs.Layer.StepDepth
import AppSpec.Proofs.Layer.StepReferences
import AppSpec.Proofs.Layer.CollectionBehaves
import AppSpec.Proofs.Layer.LayerBehaves
import AppSpec.Proofs.Document.Mild
import AppSpec.Proofs.Document.Recursion
import AppSpec.Proofs.Document.Total
import AppSpec.Proofs.Named.Order
import AppSpec.Proofs.Sorting
import AppSpec.Proofs.SymbolTable.Alike
import AppSpec.Proofs.DiagnosticOrder
import AppSpec.Proofs.Graph.Order
import AppSpec.Proofs.Layer.Alike
import AppSpec.Proofs.Layer.LayersReordered
import AppSpec.Proofs.Reference.Order
import AppSpec.Proofs.Reference.Relationships
import AppSpec.Proofs.Document.Reordered
import AppSpec.Proofs.Document.Accepted
import AppSpec.Proofs.Document.DeclarationOrder
import AppSpec.Proofs.Document.Parts
import AppSpec.Proofs.Layer.Frame
import AppSpec.Proofs.Layer.Isolation
import AppSpec.Proofs.Document.LayerIsolation
import AppSpec.Proofs.Layer.Taken
import AppSpec.Proofs.Layer.Bindings
import AppSpec.Proofs.Document.Accounted
import AppSpec.Proofs.Layer.FirstUse
import AppSpec.Proofs.Document.OperationOrder
import AppSpec.Proofs.Yaml.Flat
import AppSpec.Proofs.Yaml.Merge
import AppSpec.Proofs.Yaml.Making
import AppSpec.Proofs.Yaml.Settling
import AppSpec.Proofs.Yaml.MergePrecedence
import AppSpec.Proofs.Yaml.RecursiveAlias
import AppSpec.Proofs.Yaml.RepeatedKeys
import AppSpec.Proofs.SymbolTable.History
import AppSpec.Proofs.Path
import AppSpec.Proofs.Document.Placed
import AppSpec.Proofs.TypeExpr.Grammar
import AppSpec.Proofs.TypeExpr.Grammar.Read
import AppSpec.Proofs.TypeExpr.Grammar.Derive
import AppSpec.Proofs.TypeExpr.Constraint.Passing
import AppSpec.Proofs.TypeExpr.Constraint.Word
import AppSpec.Proofs.TypeExpr.Constraint.Literal
import AppSpec.Proofs.TypeExpr.Constraint.Entry
import AppSpec.Proofs.TypeExpr.Constraint.Recovery
import AppSpec.Proofs.TypeExpr.Constraint.Block
import AppSpec.Proofs.Json.Reader
import AppSpec.Proofs.Yaml.Grammar
import AppSpec.Proofs.Yaml.Token.Property
import AppSpec.Proofs.Yaml.Token.Scalar
import AppSpec.Proofs.Yaml.Token.Stream
import AppSpec.Proofs.Yaml.Value
import AppSpec.Proofs.Source.Parse
import AppSpec.Proofs.TypeExpr.Nesting
import AppSpec.Proofs.Reference.Resolution
import AppSpec.Proofs.Reference.Shape
import AppSpec.Proofs.Reference.Inference
import AppSpec.Proofs.Layer.Covers
import AppSpec.Proofs.Layer.EntityFields
import AppSpec.Proofs.Document.RelationTarget
import AppSpec.Proofs.TypeExpr.Place
import AppSpec.Proofs.TypeExpr.Repetition
import AppSpec.Proofs.TypeExpr.Embedding
import AppSpec.Proofs.Layer.InlineType
import AppSpec.Proofs.Reference.MappingTarget
import AppSpec.Proofs.Layer.Below
import AppSpec.Proofs.Layer.LayerBelow
import AppSpec.Proofs.Layer.FieldAccess
import AppSpec.Proofs.Document.FieldAccess
import AppSpec.Proofs.Reference.MemberTree
import AppSpec.Proofs.TypeExpr.Limit
import AppSpec.Proofs.Layer.StepTree
import AppSpec.Proofs.Reference.TypeName
import AppSpec.Proofs.Text.Balanced
import AppSpec.Proofs.Graph.Declaration
import AppSpec.Proofs.Layer.Unnamed
import AppSpec.Proofs.Yaml.ItemNames
import AppSpec.Proofs.Path.Climb
