import Repack.Exhaustive
import Repack.Sampling
import Repack.Session
import Repack.Store.Redundancy
import Repack.Proofs.Sequence
import Repack.Proofs.Ranking
import Repack.Proofs.Permutation
import Repack.Proofs.Placement
import Repack.Proofs.BitSet.Positions
import Repack.Proofs.BitSet.Relations
import Repack.Proofs.BitSet.Histories
import Repack.Proofs.Correspondence
import Repack.Proofs.Settings.Preference
import Repack.Proofs.Settings.Bounds
import Repack.Proofs.Index.Filing
import Repack.Proofs.Index.Reachable
import Repack.Proofs.Index.Queries
import Repack.Proofs.Index.Ascending
import Repack.Proofs.Index.Refinement
import Repack.Proofs.Index.Integrity
import Repack.Proofs.Index.Pruning
import Repack.Proofs.Index.Redundancy
import Repack.Proofs.Index.Progress
import Repack.Proofs.Index.Rearrangement
import Repack.Proofs.Index.Interleaving
import Repack.Proofs.Entry
import Repack.Proofs.Subsumption
import Repack.Proofs.Occupancy
import Repack.Proofs.Building
import Repack.Proofs.Store.Reachable
import Repack.Proofs.Store.Search
import Repack.Proofs.Store.Recording
import Repack.Proofs.Store.Pruning
import Repack.Proofs.Store.Redundancy
import Repack.Proofs.Store.Progress
import Repack.Proofs.Store.Integrity
import Repack.Proofs.Store.Rearrangement
import Repack.Proofs.Store.Rebuilding
import Repack.Proofs.Store.Exclusion
import Repack.Proofs.Store.Locality
import Repack.Proofs.Store.Monotonicity
import Repack.Proofs.Store.Intake
import Repack.Proofs.Store.Seeds
import Repack.Proofs.Store.Dominance
import Repack.Proofs.Constraint
import Repack.Proofs.Session.Interleaving
import Repack.Proofs.Session.Soundness
import Repack.Proofs.Session.Persistence
import Repack.Proofs.Session.Rearrangement
import Repack.Proofs.Session.Refusal
import Repack.Proofs.Store.Keys
import Repack.Proofs.Store.Ledger
import Repack.Proofs.Session.Accounting
import Repack.Proofs.Session.Numbering
import Repack.Proofs.Json.Decimal
import Repack.Proofs.Json.Quoted
import Repack.Proofs.Json.Reader
import Repack.Proofs.Codec.Documented
import Repack.Proofs.Codec.Compact
import Repack.Proofs.Codec.RoundTrip
