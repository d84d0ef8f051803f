import CurvePartition.Assignment
import CurvePartition.Backend
import CurvePartition.Cluster.Attempt
import CurvePartition.Cluster.Basic
import CurvePartition.Cluster.Call
import CurvePartition.Cluster.Mail
import CurvePartition.Cluster.Program
import CurvePartition.Config.Basic
import CurvePartition.Config.Document
import CurvePartition.Curve.Basic
import CurvePartition.Curve.Hilbert
import CurvePartition.Curve.Interleave
import CurvePartition.Decimal.Layout
import CurvePartition.Decimal.Numeral
import CurvePartition.Decimal.Reading
import CurvePartition.Decimal.Shortest
import CurvePartition.Digest
import CurvePartition.Error.Basic
import CurvePartition.Error.Message
import CurvePartition.Focus.Basic
import CurvePartition.Focus.Criterion
import CurvePartition.Global.Bounds
import CurvePartition.Global.Tree
import CurvePartition.Halo.Plan
import CurvePartition.Halo.Search
import CurvePartition.Halo.SendList
import CurvePartition.Json.Basic
import CurvePartition.Json.Parser
import CurvePartition.Json.Printer
import CurvePartition.Key.Basic
import CurvePartition.Key.Cover
import CurvePartition.Leaves.Balance
import CurvePartition.Leaves.Basic
import CurvePartition.Naturals
import CurvePartition.Octree.Basic
import CurvePartition.Octree.Fold
import CurvePartition.Particles.Basic
import CurvePartition.Particles.Column
import CurvePartition.Particles.KeySort
import CurvePartition.Particles.Transfer
import CurvePartition.Scalar
import CurvePartition.Sorted.Bins
import CurvePartition.Sorted.Ranges
import CurvePartition.Sorted.Search
import CurvePartition.Space.Box
import CurvePartition.Space.BoxText
import CurvePartition.Space.Distance
import CurvePartition.Space.Triple
import CurvePartition.Subdomain.Basic
import CurvePartition.Subdomain.Step
import CurvePartition.Subdomain.Validation
import CurvePartition.Wire
import CurvePartition.Proofs.Key.Cells
import CurvePartition.Proofs.Leaves.Boundaries
import CurvePartition.Proofs.Leaves.Siblings
import CurvePartition.Proofs.Leaves.Adapting
import CurvePartition.Proofs.Leaves.Counting
import CurvePartition.Proofs.Leaves.Balanced
import CurvePartition.Proofs.Cluster.Channels
import CurvePartition.Proofs.Cluster.Failing
import CurvePartition.Proofs.Cluster.Runs
import CurvePartition.Proofs.Cluster.Exchanges
import CurvePartition.Proofs.Global.Balance
import CurvePartition.Proofs.Assignment
import CurvePartition.Proofs.Focus.Settling
import CurvePartition.Proofs.Halo.Reaching
import CurvePartition.Proofs.Cluster.Messages
import CurvePartition.Proofs.Halo.Lists
import CurvePartition.Proofs.Halo.Counting
import CurvePartition.Proofs.Halo.Agreement
import CurvePartition.Proofs.Cluster.Succeeding
import CurvePartition.Proofs.Global.Bounds
import CurvePartition.Proofs.Leaves.Refining
import CurvePartition.Proofs.Particles.Columns
import CurvePartition.Proofs.Particles.Fetching
import CurvePartition.Proofs.Subdomain.Agreeing
import CurvePartition.Proofs.Subdomain.Radii
import CurvePartition.Proofs.Subdomain.Stages
import CurvePartition.Proofs.Subdomain.Trees
import CurvePartition.Proofs.Halo.Runs
import CurvePartition.Proofs.Halo.Completeness
import CurvePartition.Proofs.Focus.Canonical
import CurvePartition.Proofs.Particles.Conserving
import CurvePartition.Proofs.Subdomain.Canonical
import CurvePartition.Proofs.Subdomain.Completeness
import CurvePartition.Proofs.Subdomain.Repeating
import CurvePartition.Proofs.Cluster.Alignment
import CurvePartition.Proofs.Subdomain.Leaving
import CurvePartition.Proofs.Subdomain.Rejecting
import CurvePartition.Proofs.Subdomain.Ranges
import CurvePartition.Proofs.Curve.Codecs
import CurvePartition.Proofs.Curve.Ranges
import CurvePartition.Proofs.Curve.Neighbours
import CurvePartition.Proofs.Octree.Links
import CurvePartition.Proofs.Leaves.Growth
import CurvePartition.Proofs.Halo.Sections
import CurvePartition.Proofs.Cluster.Sessions
import CurvePartition.Proofs.Cluster.Traces
import CurvePartition.Proofs.Cluster.Mailboxes
import CurvePartition.Proofs.Cluster.Contributions
import CurvePartition.Proofs.Cluster.Pairing
import CurvePartition.Proofs.Cluster.Agreement
import CurvePartition.Proofs.Cluster.Covering
import CurvePartition.Proofs.Leaves.Deciding
import CurvePartition.Proofs.Leaves.Replacing
import CurvePartition.Proofs.Assignment.Partition
import CurvePartition.Proofs.Assignment.Loads
import CurvePartition.Proofs.Space.Rational
import CurvePartition.Proofs.Space.Rounding
import CurvePartition.Proofs.Halo.Pruning
import CurvePartition.Proofs.Assignment.Nearest
import CurvePartition.Proofs.Key.Minimal
import CurvePartition.Proofs.Leaves.Enough
import CurvePartition.Proofs.Octree.Folding
import CurvePartition.Proofs.Space.Closest
import CurvePartition.Proofs.Particles.Packing
import CurvePartition.Proofs.Particles.Sorting
import CurvePartition.Proofs.Global.Enclosing
import CurvePartition.Proofs.Subdomain.Handling
import CurvePartition.Proofs.Decimal.Numerals
import CurvePartition.Proofs.Json.Reading
import CurvePartition.Proofs.Config.Checking
import CurvePartition.Proofs.Config.Ordering
import CurvePartition.Proofs.Config.Document
import CurvePartition.Proofs.Cluster.Ending
import CurvePartition.Proofs.Cluster.Sending
import CurvePartition.Proofs.Cluster.Overtaking
import CurvePartition.Proofs.Cluster.Succession
import CurvePartition.Proofs.Subdomain.Finishing
import CurvePartition.Proofs.Subdomain.Crowding
