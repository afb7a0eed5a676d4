import Mooring.CommandLine.Run
import Mooring.Main
import Mooring.Proofs.Fragment.Canonical
import Mooring.Proofs.Anchor.Lifecycle
import Mooring.Proofs.Store.Sharing
import Mooring.Proofs.CommandLine.Hashed
import Mooring.Proofs.Selector.Generated
import Mooring.Proofs.Markup.Exact
import Mooring.Proofs.Record.Leftover
import Mooring.Proofs.Anchor.Rereading
import Mooring.Proofs.Store.Refinement
import Mooring.Proofs.Store.Unknown
import Mooring.Proofs.Decimal.Arithmetic
import Mooring.Proofs.Decimal.Shares
import Mooring.Proofs.Fragment.Similarity
import Mooring.Proofs.Resolution.Arranged
import Mooring.Proofs.Resolution.Growth
import Mooring.Proofs.Resolution.Deadline
import Mooring.Proofs.Resolution.Degradation
import Mooring.Proofs.Resolution.Delays
import Mooring.Proofs.Anchor.Convergence
import Mooring.Proofs.Decimal.Magnitude
import Mooring.Proofs.Stability
import Mooring.Proofs.Fragment.Faithful
import Mooring.Proofs.Markup.Nesting
import Mooring.Proofs.Anchor.Refreshing
import Mooring.Proofs.Store.Unreadable
import Mooring.Proofs.CommandLine.Exit
import Mooring.Proofs.Markup.Opaque
import Mooring.Proofs.Markup.Spans
import Mooring.Proofs.Resolution.Provenance
import Mooring.Proofs.Fragment.Comparison
import Mooring.Proofs.Markup.Ranking
import Mooring.Proofs.Resolution.Similar
import Mooring.Proofs.Resolution.Ties
import Mooring.Proofs.Anchor.Nearest
import Mooring.Proofs.Selector.Quoting
import Mooring.Proofs.Resolution.Matched
import Mooring.Proofs.Selector.Preference
import Mooring.Proofs.Resolution.FastScores
import Mooring.Proofs.Anchor.Searched
import Mooring.Proofs.Selector.Durability
import Mooring.Proofs.Selector.HasText
import Mooring.Proofs.Pattern.Limits
import Mooring.Proofs.Fragment.StartTag
import Mooring.Proofs.Pattern.Guard
import Mooring.Proofs.Resolution.Foremost
import Mooring.Proofs.Settings.Loaded
import Mooring.Proofs.Blending
import Mooring.Proofs.Anchor.Hinted
import Mooring.Proofs.Selector.SeveralLines
import Mooring.Proofs.Anchor.BestMatch
