import ContentAssist.Text.Blank
import ContentAssist.Text.Bytes
import ContentAssist.Text.Cursor
import ContentAssist.Markup.Event
import ContentAssist.Markup.Lexer
import ContentAssist.Markup.Reader
import ContentAssist.Schema.Error
import ContentAssist.Schema.Occurs
import ContentAssist.Schema.Basic
import ContentAssist.Schema.Lookup
import ContentAssist.Schema.Annotate
import ContentAssist.Schema.Setup
import ContentAssist.Document
import ContentAssist.Replay.Progress
import ContentAssist.Replay.Basic
import ContentAssist.Completion.Suggestion
import ContentAssist.Completion.Hook
import ContentAssist.Completion.Offer
import ContentAssist.Engine
import ContentAssist.Proofs.Matching
import ContentAssist.Proofs.Steps
import ContentAssist.Proofs.Lexing
import ContentAssist.Proofs.RoundTrip
import ContentAssist.Proofs.Seam
import ContentAssist.Proofs.Reading
import ContentAssist.Proofs.PrefixClosed
import ContentAssist.Proofs.ContentModel
import ContentAssist.Proofs.Offered
import ContentAssist.Proofs.Children
import ContentAssist.Proofs.Lineage
import ContentAssist.Proofs.Forest
import ContentAssist.Proofs.Mirror
import ContentAssist.Proofs.Closing
import ContentAssist.Proofs.Fragment
import ContentAssist.Proofs.Caret
import ContentAssist.Proofs.Boundaries
import ContentAssist.Proofs.Pulling
import ContentAssist.Proofs.Outline
import ContentAssist.Proofs.Undocumented
import ContentAssist.Proofs.Greedy
import ContentAssist.Proofs.History
import ContentAssist.Proofs.Rounds
import ContentAssist.Proofs.Tally
import ContentAssist.Proofs.Finished
import ContentAssist.Proofs.Derivation
import ContentAssist.Proofs.Inheritance
import ContentAssist.Proofs.ValidDocument
import ContentAssist.Proofs.Narrowing
import ContentAssist.Proofs.Retyping
import ContentAssist.Proofs.Interlude
import ContentAssist.Proofs.Frame
import ContentAssist.Proofs.Prohibited
import ContentAssist.Proofs.AttributeNames
import ContentAssist.Proofs.Unrepeated
import ContentAssist.Proofs.Documenting
