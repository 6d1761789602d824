import LiveMarkup.Arena.Basic
import LiveMarkup.Arena.Binder
import LiveMarkup.Arena.Patch
import LiveMarkup.Component.Basic
import LiveMarkup.Component.Definition
import LiveMarkup.Component.Event
import LiveMarkup.Component.Script
import LiveMarkup.Document.Attributes
import LiveMarkup.Document.Basic
import LiveMarkup.Document.Binder
import LiveMarkup.Document.Live
import LiveMarkup.Document.Patch
import LiveMarkup.Document.Registry
import LiveMarkup.Entries
import LiveMarkup.Error
import LiveMarkup.Eval.Escape
import LiveMarkup.Eval.Expr
import LiveMarkup.Eval.Scope
import LiveMarkup.Eval.Template
import LiveMarkup.Eval.World
import LiveMarkup.Expr.Basic
import LiveMarkup.Expr.Grammar
import LiveMarkup.Grammar.Rule
import LiveMarkup.Host.Event
import LiveMarkup.Host.Pass
import LiveMarkup.Markup.Entity
import LiveMarkup.Markup.Node
import LiveMarkup.Markup.Parse
import LiveMarkup.Markup.Reference
import LiveMarkup.Markup.Token
import LiveMarkup.Number.Binary
import LiveMarkup.Number.Read
import LiveMarkup.Number.Shortest
import LiveMarkup.Number.Text
import LiveMarkup.Proofs.Eval.Effect
import LiveMarkup.Proofs.Eval.Run
import LiveMarkup.Proofs.Host.Effect
import LiveMarkup.Proofs.Host.Failure
import LiveMarkup.State.Key
import LiveMarkup.State.Tracked
import LiveMarkup.Template.Directive
import LiveMarkup.Template.EachHeader
import LiveMarkup.Template.Keyword
import LiveMarkup.Template.Segment
import LiveMarkup.Template.Shorthand
import LiveMarkup.Text.Blank
import LiveMarkup.Text.Scan
import LiveMarkup.Text.Units
import LiveMarkup.Text.WordChar
import LiveMarkup.Value.Basic
import LiveMarkup.Value.Coerce
import LiveMarkup.Value.Snapshot
import LiveMarkup.Value.Text
import LiveMarkup.Proofs.Document.Attributes
import LiveMarkup.Proofs.Document.PatchTree
import LiveMarkup.Proofs.Value.Alike
import LiveMarkup.Proofs.Eval.Alike
import LiveMarkup.Proofs.Document.Repatch
import LiveMarkup.Proofs.Markup.Codec
import LiveMarkup.Proofs.Markup.Plain
import LiveMarkup.Proofs.Host.Reachable
import LiveMarkup.Proofs.Host.Rerender
import LiveMarkup.Proofs.Grammar.Reading
import LiveMarkup.Proofs.Document.Kin
import LiveMarkup.Proofs.Markup.Filled
import LiveMarkup.Proofs.Markup.Placed
import LiveMarkup.Proofs.Eval.Interpolate
import LiveMarkup.Proofs.Host.Sync
import LiveMarkup.Proofs.Markup.Normal
import LiveMarkup.Proofs.Markup.Written
import LiveMarkup.Proofs.Text.Letter
import LiveMarkup.Proofs.Markup.RoundTrip
import LiveMarkup.Proofs.Expr.Name
import LiveMarkup.Proofs.Template.Pieces
import LiveMarkup.Proofs.Markup.Sketch
import LiveMarkup.Proofs.Eval.Injection
import LiveMarkup.Proofs.Eval.Agree
import LiveMarkup.Proofs.Host.Agree
import LiveMarkup.Proofs.Host.Quiet
import LiveMarkup.Proofs.Host.Passes
import LiveMarkup.Proofs.Document.Identity
import LiveMarkup.Proofs.Document.Bound
import LiveMarkup.Proofs.Host.Listeners
import LiveMarkup.Proofs.Document.Markers
import LiveMarkup.Proofs.Document.Counterpart
import LiveMarkup.Proofs.Host.Markers
import LiveMarkup.Proofs.Arena.Cells
import LiveMarkup.Proofs.Arena.Focus
import LiveMarkup.Proofs.Arena.Edits
import LiveMarkup.Proofs.Arena.Patch
import LiveMarkup.Proofs.Arena.Bind
import LiveMarkup.Proofs.Arena.Represents
import LiveMarkup.Proofs.Arena.Simulation
import LiveMarkup.Proofs.Arena.Run
import LiveMarkup.Proofs.Arena.WellFormed
import LiveMarkup.Proofs.Arena.Exchange
import LiveMarkup.Proofs.Document.Faithful
import LiveMarkup.Proofs.State.Write
import LiveMarkup.Proofs.Markup.Tidy
import LiveMarkup.Proofs.Grammar.Leads
import LiveMarkup.Proofs.Expr.Print
import LiveMarkup.Proofs.Expr.Lexeme
import LiveMarkup.Proofs.Expr.Level
import LiveMarkup.Proofs.Expr.RoundTrip
import LiveMarkup.Proofs.Expr.Header
import LiveMarkup.Proofs.Template.Scan
import LiveMarkup.Proofs.Template.Header
import LiveMarkup.Proofs.Template.Blocks
import LiveMarkup.Proofs.Template.RoundTrip
import LiveMarkup.Proofs.Arena.Reconcile
import LiveMarkup.Proofs.Eval.Names
import LiveMarkup.Proofs.Arena.Tree
import LiveMarkup.Proofs.Document.Compatible
import LiveMarkup.Proofs.Document.Unambiguous
import LiveMarkup.Proofs.Arena.Matching
import LiveMarkup.Proofs.Arena.Counts
import LiveMarkup.Proofs.Markup.Balanced
import LiveMarkup.Proofs.Markup.RawText
import LiveMarkup.Proofs.Arena.Climb
import LiveMarkup.Proofs.Host.Dispatch
import LiveMarkup.Proofs.Template.Words
import LiveMarkup.Proofs.Template.Tokens
import LiveMarkup.Proofs.Eval.Frames
import LiveMarkup.Proofs.Eval.Scope
import LiveMarkup.Proofs.Eval.Rounds
import LiveMarkup.Proofs.Eval.Limit
import LiveMarkup.Proofs.Eval.Loop
import LiveMarkup.Proofs.Eval.Entities
import LiveMarkup.Proofs.Eval.Display
import LiveMarkup.Proofs.Eval.Walk
import LiveMarkup.Proofs.Eval.Calls
import LiveMarkup.Proofs.Expr.Word
import LiveMarkup.Proofs.Template.Bound
import LiveMarkup.Proofs.Eval.ReadBack
import LiveMarkup.Proofs.Value.Unfolding
import LiveMarkup.Proofs.State.Length
import LiveMarkup.Proofs.Number.Index
import LiveMarkup.Proofs.Eval.Property
import LiveMarkup.Proofs.Eval.Characters
import LiveMarkup.Proofs.Component.Layout
import LiveMarkup.Proofs.Value.Compare
import LiveMarkup.Proofs.Template.Partition
import LiveMarkup.Proofs.Template.Shorthand
import LiveMarkup.Proofs.Document.Labelled
import LiveMarkup.Proofs.Arena.Attributes
import LiveMarkup.Proofs.Arena.Readers
import LiveMarkup.Proofs.Arena.Markers
