import TreeListing.Main
import TreeListing.Node
import TreeListing.Proofs.Comparison.Conservation
import TreeListing.Proofs.Comparison.Exactness
import TreeListing.Proofs.Replay.RoundTrip
import TreeListing.Proofs.Comparison.Alignment
import TreeListing.Proofs.Recursion
import TreeListing.Proofs.Comparison.Ellipsis
import TreeListing.Proofs.Comparison.Collapse
import TreeListing.Proofs.Template.Language
import TreeListing.Proofs.Replay.Sequence
import TreeListing.Proofs.Comparison.Files
import TreeListing.Proofs.Comparison.Nature
import TreeListing.Proofs.Comparison.Failures
import TreeListing.Proofs.Balance
import TreeListing.Proofs.Replay.Noise
import TreeListing.Proofs.Literal
import TreeListing.Proofs.Replay.Root
import TreeListing.Proofs.Replay.Ambiguous
import TreeListing.Proofs.DepthLimit
import TreeListing.Proofs.Template.OwnLines
import TreeListing.Proofs.Template.Repeated
import TreeListing.Proofs.ValidDates
import TreeListing.Proofs.LimitedWalk
import TreeListing.Proofs.SystemOrder
import TreeListing.Proofs.Comparison.Siblings
import TreeListing.Proofs.Template.Grammar
import TreeListing.Proofs.Template.Known
import TreeListing.Proofs.Layers
import TreeListing.Proofs.Node
import TreeListing.Proofs.Run
import TreeListing.Proofs.Levels
import TreeListing.Proofs.Replay.OwnPlace
import TreeListing.Proofs.Extras
import TreeListing.Proofs.Replay.Framed
