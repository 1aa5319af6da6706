import LosslessTree.BoundingBox
import LosslessTree.Command.Arguments
import LosslessTree.Command.Report
import LosslessTree.Command.Run
import LosslessTree.Coordinate
import LosslessTree.Decimal.DoubleRange
import LosslessTree.Files
import LosslessTree.Json.Numeral
import LosslessTree.Json.Raw
import LosslessTree.Json.Reading
import LosslessTree.Json.Value
import LosslessTree.Main
import LosslessTree.Node.Basic
import LosslessTree.Node.Build
import LosslessTree.Node.Json
import LosslessTree.Node.Trace
import LosslessTree.Node.Walk
import LosslessTree.Path.Basic
import LosslessTree.Path.Parser
import LosslessTree.Path.Printer
import LosslessTree.Position
import LosslessTree.Proofs.Ancestors
import LosslessTree.Proofs.BoxLookup
import LosslessTree.Proofs.Layout
import LosslessTree.Proofs.Leaves
import LosslessTree.Proofs.PositionLookup
import LosslessTree.Proofs.Trail
import LosslessTree.Proofs.WalkCalls
import LosslessTree.Query.Basic
import LosslessTree.Query.File
import LosslessTree.Query.Issue
import LosslessTree.Query.Outcome
import LosslessTree.Query.Schema
import LosslessTree.Record
import LosslessTree.Resolve.Cursor
import LosslessTree.Resolve.Extent
import LosslessTree.Resolve.PathWalk
import LosslessTree.Text.Blank
import LosslessTree.Text.EditDistance
import LosslessTree.Text.Newline
import LosslessTree.Toml.Document
import LosslessTree.Toml.Lexical
import LosslessTree.Toml.Reading
import LosslessTree.Toml.Scalar
import LosslessTree.Toml.Table
import LosslessTree.Proofs.SourceOrder
import LosslessTree.Proofs.LeafCuts
import LosslessTree.Proofs.PathText
import LosslessTree.Proofs.PathTracking
import LosslessTree.Proofs.ReportedPaths
import LosslessTree.Proofs.JsonText
import LosslessTree.Proofs.TreeJson
import LosslessTree.Proofs.Tiling
import LosslessTree.Proofs.Relocation
import LosslessTree.Proofs.Outcomes
import LosslessTree.Proofs.TreeRereading
import LosslessTree.Proofs.BoxOrder
import LosslessTree.Proofs.ExitStatus
import LosslessTree.Proofs.PathGrammar
import LosslessTree.Proofs.BoxCorners
import LosslessTree.Proofs.EditDistance
import LosslessTree.Proofs.MissingKeys
import LosslessTree.Proofs.BatchIssues
import LosslessTree.Proofs.DistinctFields
import LosslessTree.Proofs.LineRuns
import LosslessTree.Proofs.TextParts
import LosslessTree.Proofs.PathJson
import LosslessTree.Proofs.QuerySafety
import LosslessTree.Proofs.JsonGrammar
import LosslessTree.Proofs.PrintedReports
