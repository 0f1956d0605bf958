import CallAtlas.Bytes
import CallAtlas.Binary64
import CallAtlas.Table
import CallAtlas.Json.Value
import CallAtlas.Json.Writer
import CallAtlas.Json.Reader
import CallAtlas.Source
import CallAtlas.Token
import CallAtlas.Token.Literal
import CallAtlas.Token.Scan
import CallAtlas.Token.Lexer
import CallAtlas.Tree
import CallAtlas.Grammar.Error
import CallAtlas.Grammar.Cursor
import CallAtlas.Grammar.Arguments
import CallAtlas.Grammar.Block
import CallAtlas.Grammar.Operator
import CallAtlas.Grammar.Literal
import CallAtlas.Grammar.Suffix
import CallAtlas.Grammar.Expression
import CallAtlas.Ordered
import CallAtlas.Name
import CallAtlas.Alias
import CallAtlas.Log.Level
import CallAtlas.Record
import CallAtlas.Atlas
import CallAtlas.Atlas.Dot
import CallAtlas.Atlas.Document
import CallAtlas.Record.OfSource
import CallAtlas.Log.Filter
import CallAtlas.Options
import CallAtlas.Log.Line
import CallAtlas.Log.Config
import CallAtlas.Options.CommandLine
import CallAtlas.Options.Config
import CallAtlas.Path
import CallAtlas.FileTree
import CallAtlas.FileTree.Lookup
import CallAtlas.FileTree.Directories
import CallAtlas.Project
import CallAtlas.Options.Resolve
import CallAtlas.Session
import CallAtlas.Run
import CallAtlas.Main
import CallAtlas.Proofs.Except
import CallAtlas.Proofs.Bytes
import CallAtlas.Proofs.Order
import CallAtlas.Proofs.Table
import CallAtlas.Proofs.Name
import CallAtlas.Proofs.Json.Grammar
import CallAtlas.Proofs.Json.Completeness
import CallAtlas.Proofs.Json.RoundTrip
import CallAtlas.Proofs.Token.Widths
import CallAtlas.Proofs.Token.Gaps
import CallAtlas.Proofs.Token.Kinds
import CallAtlas.Proofs.Token.Run
import CallAtlas.Proofs.Token.Segments
import CallAtlas.Proofs.Token.Spelling
import CallAtlas.Proofs.Token.Layout
import CallAtlas.Proofs.Grammar.Derivation
import CallAtlas.Proofs.Grammar.Reads
import CallAtlas.Proofs.Grammar.Arguments
import CallAtlas.Proofs.Grammar.Construct
import CallAtlas.Proofs.Grammar.Soundness
import CallAtlas.Proofs.Grammar.Nesting
import CallAtlas.Proofs.Grammar.Pieces
import CallAtlas.Proofs.Grammar.Yield
import CallAtlas.Proofs.Grammar.Shape
import CallAtlas.Proofs.Grammar.Nodes
import CallAtlas.Proofs.Grammar.Segments
import CallAtlas.Proofs.Record.Events
import CallAtlas.Proofs.Record.Checked
import CallAtlas.Proofs.Record.Names
import CallAtlas.Proofs.Atlas.Contents
import CallAtlas.Proofs.Atlas.Document
import CallAtlas.Proofs.Atlas.Saved
import CallAtlas.Proofs.Token.Fragments
import CallAtlas.Proofs.Json.Depth
import CallAtlas.Proofs.Json.Soundness
import CallAtlas.Proofs.Atlas.Internal
import CallAtlas.Proofs.Atlas.ByOrder
import CallAtlas.Proofs.Atlas.Callers
import CallAtlas.Proofs.Log.Line
import CallAtlas.Proofs.Record.Isolation
import CallAtlas.Proofs.Grammar.Progress
import CallAtlas.Proofs.Options.CommandLine
import CallAtlas.Proofs.Options.Logging
import CallAtlas.Proofs.Options.Config
import CallAtlas.Proofs.Token.Literals
import CallAtlas.Proofs.Token.Settled
import CallAtlas.Proofs.Token.LineEnds
import CallAtlas.Proofs.Token.TrailingText
import CallAtlas.Proofs.Atlas.Closed
import CallAtlas.Proofs.Atlas.Agreement
import CallAtlas.Proofs.Alias
import CallAtlas.Proofs.Grammar.Height
import CallAtlas.Proofs.Grammar.Chains
import CallAtlas.Proofs.Grammar.Limit
import CallAtlas.Proofs.Alias.Braces
import CallAtlas.Proofs.Grammar.Precedence
import CallAtlas.Proofs.Record.Places
import CallAtlas.Proofs.Record.Sites
import CallAtlas.Proofs.Record.Heads
import CallAtlas.Proofs.Atlas.Schema
import CallAtlas.Proofs.Atlas.Loaded
import CallAtlas.Proofs.Grammar.Stops
import CallAtlas.Proofs.Grammar.Seam
import CallAtlas.Proofs.Grammar.Seam.Arguments
import CallAtlas.Proofs.Grammar.Seam.Block
import CallAtlas.Proofs.Grammar.Seam.Literal
import CallAtlas.Proofs.Grammar.Seam.Expression
import CallAtlas.Proofs.Grammar.Seam.Call
import CallAtlas.Proofs.Grammar.Parentheses
import CallAtlas.Proofs.Grammar.Attachment
import CallAtlas.Proofs.CodePoints
import CallAtlas.Proofs.Json.Strings
import CallAtlas.Proofs.Token.Escaping
import CallAtlas.Proofs.Token.CodePoints
import CallAtlas.Proofs.Atlas.Drawing
import CallAtlas.Proofs.Log.Gate
import CallAtlas.Proofs.Source
import CallAtlas.Proofs.Token.Positions
import CallAtlas.Proofs.Grammar.Regions
import CallAtlas.Proofs.Grammar.Regions.Rules
import CallAtlas.Proofs.Positions
import CallAtlas.Proofs.Json.Machine
import CallAtlas.Proofs.Json.Counters
import CallAtlas.Proofs.Json.Reads
import CallAtlas.Proofs.Json.Agreement
