import SchemaLift.Block.Outline
import SchemaLift.Block.Shape
import SchemaLift.Call.ListCall
import SchemaLift.Call.Signature
import SchemaLift.Call.Statement
import SchemaLift.Console.Arguments
import SchemaLift.Console.Command
import SchemaLift.Console.Discovery
import SchemaLift.Console.Environment
import SchemaLift.Console.Failure
import SchemaLift.Console.Invocation
import SchemaLift.Console.Libraries
import SchemaLift.Console.Program
import SchemaLift.Console.Switch
import SchemaLift.Console.Transcript
import SchemaLift.Declaration.Basic
import SchemaLift.Declaration.Edit
import SchemaLift.Declaration.Flatten
import SchemaLift.Declaration.Resolver
import SchemaLift.Declaration.Scan
import SchemaLift.Definition.GraphqlName
import SchemaLift.Definition.Header
import SchemaLift.Definition.Hook
import SchemaLift.Definition.Kind
import SchemaLift.Definition.TypeList
import SchemaLift.Diagnostic
import SchemaLift.Diff.Script
import SchemaLift.Diff.Unified
import SchemaLift.Files.Glob
import SchemaLift.Files.Path
import SchemaLift.Files.Tree
import SchemaLift.Json
import SchemaLift.Main
import SchemaLift.Name
import SchemaLift.Proc.Accessor
import SchemaLift.Proc.Literal
import SchemaLift.Text.Blank
import SchemaLift.Text.Indent
import SchemaLift.Text.Lines
import SchemaLift.Text.Match
import SchemaLift.Text.Newline
import SchemaLift.Token.Bracket
import SchemaLift.Token.Kind
import SchemaLift.Token.Quoted
import SchemaLift.Token.Scan
import SchemaLift.Token.Stream
import SchemaLift.Toml.Parser
import SchemaLift.Toml.Scalar
import SchemaLift.Toml.Settings
import SchemaLift.Toml.Value
import SchemaLift.Type.Expression
import SchemaLift.Type.Scalar
import SchemaLift.Upgrade.Pipeline
import SchemaLift.Upgrade.Rule
import SchemaLift.Upgrade.Settings
import SchemaLift.Upgrade.Skip
import SchemaLift.Proofs.Text.Lines
import SchemaLift.Proofs.Text.Replace
import SchemaLift.Proofs.Block.Outline
import SchemaLift.Proofs.Call.Signature
import SchemaLift.Proofs.Declaration.AtOnce
import SchemaLift.Proofs.Definition.Header
import SchemaLift.Proofs.Definition.NameStatement
import SchemaLift.Proofs.Definition.Scan
import SchemaLift.Proofs.Upgrade.Untouched
import SchemaLift.Proofs.Block.Balance
import SchemaLift.Proofs.Block.Enclosing
import SchemaLift.Proofs.Declaration.Balance
import SchemaLift.Proofs.Upgrade.Rest
import SchemaLift.Proofs.Upgrade.Twice
import SchemaLift.Proofs.Definition.HeaderShape
import SchemaLift.Proofs.Declaration.Kept
import SchemaLift.Proofs.Call.Line
import SchemaLift.Proofs.Declaration.FlatLine
import SchemaLift.Proofs.Proc.Accessor
import SchemaLift.Proofs.Proc.Body
import SchemaLift.Proofs.Upgrade.PlainDefinition
import SchemaLift.Proofs.Block.Matching
import SchemaLift.Proofs.Block.Inline
import SchemaLift.Proofs.Token.Joined
import SchemaLift.Proofs.Type.Grammar
import SchemaLift.Proofs.Type.Canonical
import SchemaLift.Proofs.Token.Items
import SchemaLift.Proofs.Call.Parts
import SchemaLift.Proofs.Token.Kind
import SchemaLift.Proofs.Call.RoundTrip
import SchemaLift.Proofs.Call.Lossless
import SchemaLift.Proofs.Upgrade.Newline
import SchemaLift.Proofs.Upgrade.Skipped
import SchemaLift.Proofs.Declaration.Keys
import SchemaLift.Proofs.Upgrade.Comments
import SchemaLift.Proofs.Definition.Replaced
import SchemaLift.Proofs.Console.Agreement
import SchemaLift.Proofs.Token.Nesting
import SchemaLift.Proofs.Declaration.Emission
import SchemaLift.Proofs.Definition.NameOnly
import SchemaLift.Proofs.Console.Order
import SchemaLift.Proofs.Block.Children
import SchemaLift.Proofs.Block.TrailingComment
import SchemaLift.Proofs.Block.OnLines
import SchemaLift.Proofs.Proc.ArgumentKey
import SchemaLift.Proofs.Proc.Delimiters
import SchemaLift.Proofs.Block.Extent
import SchemaLift.Proofs.Token.Lossless
import SchemaLift.Proofs.Diagnostic
import SchemaLift.Proofs.Upgrade.Settings
import SchemaLift.Proofs.Token.TopLevel
import SchemaLift.Proofs.Name.Canonical
import SchemaLift.Proofs.Declaration.Coverage
import SchemaLift.Proofs.Text.Indent
import SchemaLift.Proofs.Proc.BodyLines
import SchemaLift.Proofs.Block.Steady
import SchemaLift.Proofs.Call.Weight
import SchemaLift.Proofs.Declaration.Values
