import MacroBridge.Bracket
import MacroBridge.Cli.Arguments
import MacroBridge.Cli.Log
import MacroBridge.Cli.Run
import MacroBridge.Config
import MacroBridge.Duration
import MacroBridge.Files
import MacroBridge.Framing.Boundary
import MacroBridge.Framing.Reader
import MacroBridge.Framing.Stream
import MacroBridge.Json.Decoder
import MacroBridge.Json.Piece
import MacroBridge.Main
import MacroBridge.Message
import MacroBridge.Pattern
import MacroBridge.Process.Command
import MacroBridge.Process.Run
import MacroBridge.Process.Trace
import MacroBridge.Proofs.Json.Grammar
import MacroBridge.Server.Config
import MacroBridge.Server.Process
import MacroBridge.Session.Client
import MacroBridge.Session.Error
import MacroBridge.Session.Expander
import MacroBridge.Session.Link
import MacroBridge.Shell.Arithmetic
import MacroBridge.Shell.Builtin
import MacroBridge.Shell.Field
import MacroBridge.Shell.Format
import MacroBridge.Shell.Glob
import MacroBridge.Shell.Interpreter
import MacroBridge.Shell.Reader
import MacroBridge.Shell.State
import MacroBridge.Shell.Syntax
import MacroBridge.Text.Alphanumeric
import MacroBridge.Text.NameChar
import MacroBridge.Text.Scan
import MacroBridge.Text.Utf8
import MacroBridge.Token.Cursor
import MacroBridge.Token.Fraction
import MacroBridge.Token.Grammar
import MacroBridge.Token.Kind
import MacroBridge.Token.Lexer
import MacroBridge.Toml.Document
import MacroBridge.Toml.Layout
import MacroBridge.Toml.Scalar
import MacroBridge.Toml.Value
import MacroBridge.Tree.Basic
import MacroBridge.Tree.Builder
import MacroBridge.Tree.Display
import MacroBridge.Tree.Visit
import MacroBridge.Wire.Basic
import MacroBridge.Wire.Message
import MacroBridge.Wire.Tree
import MacroBridge.Proofs.Json.Scan
import MacroBridge.Proofs.Json.Skip
import MacroBridge.Proofs.Json.Lawful
import MacroBridge.Proofs.Wire.Lawful
import MacroBridge.Proofs.Framing.Boundary
import MacroBridge.Proofs.Framing.Poll
import MacroBridge.Proofs.Framing.Delivery
import MacroBridge.Proofs.Framing.Receipt
import MacroBridge.Proofs.Framing.Silence
import MacroBridge.Proofs.Session.Writing
import MacroBridge.Proofs.Session.Exchange
import MacroBridge.Proofs.Session.Law
import MacroBridge.Proofs.Pattern
import MacroBridge.Proofs.Token.Lexer
import MacroBridge.Proofs.Token.Fraction
import MacroBridge.Proofs.Token.Cursor
import MacroBridge.Proofs.Tree.Flatten
import MacroBridge.Proofs.Json.Scalar
import MacroBridge.Proofs.Json.Compact
import MacroBridge.Proofs.Json.Reads
import MacroBridge.Proofs.Json.Distinct
import MacroBridge.Proofs.Wire.Reads
import MacroBridge.Proofs.Wire.Distinct
import MacroBridge.Proofs.Framing.RoundTrip
import MacroBridge.Proofs.Framing.Retention
import MacroBridge.Proofs.Json.Ends
import MacroBridge.Proofs.Json.Settles
import MacroBridge.Proofs.Json.Steady
import MacroBridge.Proofs.Json.Steady.Elements
import MacroBridge.Proofs.Json.Steady.Skip
import MacroBridge.Proofs.Json.Steady.Members
import MacroBridge.Proofs.Wire.Steady
import MacroBridge.Proofs.Framing.Cuts
import MacroBridge.Proofs.Tree.Built
import MacroBridge.Proofs.Tree.Nesting
import MacroBridge.Proofs.Tree.Numbering
import MacroBridge.Proofs.Pattern.Separation
import MacroBridge.Proofs.Token.Number
import MacroBridge.Proofs.Token.Acceptance
import MacroBridge.Proofs.Tree.Render
import MacroBridge.Proofs.Tree.Reparse
import MacroBridge.Proofs.Session.Shared
import MacroBridge.Proofs.Session.Unread
import MacroBridge.Proofs.Session.Lock
import MacroBridge.Proofs.Session.InFlight
import MacroBridge.Proofs.Session.Serial
import MacroBridge.Proofs.Session.SingleFlight
import MacroBridge.Proofs.Session.Crowd
import MacroBridge.Proofs.Session.Shadow
import MacroBridge.Proofs.Session.Abandon
import MacroBridge.Proofs.Tree.Places
import MacroBridge.Proofs.Tree.Spacing
import MacroBridge.Proofs.Tree.Point
import MacroBridge.Proofs.Tree.Access
import MacroBridge.Proofs.Tree.Literals
import MacroBridge.Proofs.Token.Linked
import MacroBridge.Proofs.Token.Kept
import MacroBridge.Proofs.Token.Comment
import MacroBridge.Proofs.Tree.Prolonged
import MacroBridge.Proofs.Tree.Restart
import MacroBridge.Proofs.Tree.Respaced
import MacroBridge.Proofs.Tree.Joined
import MacroBridge.Proofs.Json.Yields
import MacroBridge.Proofs.Wire.Thrifty
import MacroBridge.Proofs.Framing.Forward
import MacroBridge.Proofs.Framing.Lines
import MacroBridge.Proofs.Framing.Exact
import MacroBridge.Proofs.Framing.Rescan
import MacroBridge.Proofs.Text.Slice
import MacroBridge.Proofs.Token.Counted
import MacroBridge.Proofs.Token.Tiling
import MacroBridge.Proofs.Token.Extent
