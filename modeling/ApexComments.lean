import ApexComments.Command.Arguments
import ApexComments.Command.EnvFile
import ApexComments.Command.Logging
import ApexComments.Command.Options
import ApexComments.Command.Run
import ApexComments.Command.Settings
import ApexComments.Comment.Body
import ApexComments.Comment.Doc
import ApexComments.Comment.Marker
import ApexComments.Declaration
import ApexComments.Extraction
import ApexComments.File.Listing
import ApexComments.File.Path
import ApexComments.File.Tree
import ApexComments.Json.Basic
import ApexComments.Json.Printer
import ApexComments.Json.Reader
import ApexComments.Log
import ApexComments.Main
import ApexComments.OrderedMap
import ApexComments.Progress
import ApexComments.Proofs.AddressOnly
import ApexComments.Proofs.Anchoring
import ApexComments.Proofs.Association
import ApexComments.Proofs.CommentForms
import ApexComments.Proofs.CommentLines
import ApexComments.Proofs.Decoding
import ApexComments.Proofs.FusedLines
import ApexComments.Proofs.Grouping
import ApexComments.Proofs.HiddenRuns
import ApexComments.Proofs.Nodes
import ApexComments.Proofs.Places
import ApexComments.Proofs.Spans
import ApexComments.Proofs.Spills
import ApexComments.Proofs.Tiling
import ApexComments.Proofs.Trimming
import ApexComments.Report
import ApexComments.Source
import ApexComments.Syntax.Parser
import ApexComments.Syntax.Piece
import ApexComments.Syntax.Place
import ApexComments.Syntax.Tree
import ApexComments.Text.Basic
import ApexComments.Text.Blank
import ApexComments.Text.Keyword
import ApexComments.Text.Line
import ApexComments.Text.Numeral
import ApexComments.Text.Printable
import ApexComments.Text.Quoted
import ApexComments.Text.Utf8
import ApexComments.Text.Word
import ApexComments.Token
import ApexComments.Token.Lookup
import ApexComments.Token.Stream
import ApexComments.Proofs.Rows
import ApexComments.Proofs.LineNumbers
import ApexComments.Proofs.Listings
import ApexComments.Proofs.Batches
import ApexComments.Proofs.PrintedDocuments
import ApexComments.Proofs.Storage
import ApexComments.Proofs.Reports
import ApexComments.Proofs.Completeness
import ApexComments.Proofs.Headers
import ApexComments.Proofs.Nesting
import ApexComments.Proofs.Coverage
import ApexComments.Proofs.DocLineRuns
import ApexComments.Proofs.Ancestors
import ApexComments.Proofs.Floors
import ApexComments.Proofs.Names
import ApexComments.Proofs.TagLines
import ApexComments.Proofs.DocFields
import ApexComments.Proofs.Ways
import ApexComments.Proofs.Wording
import ApexComments.Proofs.Layout
import ApexComments.Proofs.RunPartition
import ApexComments.Proofs.Candidates
import ApexComments.Proofs.Trees
import ApexComments.Proofs.Searches
import ApexComments.Proofs.Enumeration
import ApexComments.Proofs.Leaves
import ApexComments.Proofs.PayloadPaths
