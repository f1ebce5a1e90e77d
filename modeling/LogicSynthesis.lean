import LogicSynthesis.ConflictGraph.Selection
import LogicSynthesis.FunctionCache
import LogicSynthesis.Settings
import LogicSynthesis.TruthTable.Document
import LogicSynthesis.TruthTable.Text
import LogicSynthesis.Network.Gates
import LogicSynthesis.Network.Substitution
import LogicSynthesis.Network.Walk
import LogicSynthesis.Network.FanoutFreeCone
import LogicSynthesis.DontCares
import LogicSynthesis.Equivalence
import LogicSynthesis.ConflictGraph.Candidates
import LogicSynthesis.Resynthesis.Shannon
import LogicSynthesis.Resynthesis.Majority
import LogicSynthesis.Resynthesis.Collapse
import LogicSynthesis.Rewriting
import LogicSynthesis.Translation
import LogicSynthesis.Annotation
import LogicSynthesis.Samples
import LogicSynthesis.Fingerprint
import LogicSynthesis.Proofs.Rewriting.Soundness
import LogicSynthesis.Proofs.Network.Bookkeeping
import LogicSynthesis.Proofs.Network.Replacement
import LogicSynthesis.Proofs.Cleanup.Compaction
import LogicSynthesis.Proofs.Translation
import LogicSynthesis.Proofs.Cut.Placement
import LogicSynthesis.Proofs.Fingerprint.Cones
import LogicSynthesis.Proofs.Rewriting.Conflicts
import LogicSynthesis.Proofs.Simulation.Words
import LogicSynthesis.Proofs.Rewriting.Accounts
import LogicSynthesis.Proofs.Rewriting.Savings
import LogicSynthesis.Proofs.Network.ConeCost
import LogicSynthesis.Proofs.Equivalence
import LogicSynthesis.Proofs.Rewriting.Statistics
import LogicSynthesis.Proofs.Rewriting.SingleGate
import LogicSynthesis.Proofs.Rewriting.Containment
import LogicSynthesis.Proofs.Rewriting.ZeroGain
import LogicSynthesis.Proofs.Rewriting.Locality
import LogicSynthesis.Proofs.Network.Operators
import LogicSynthesis.Proofs.Network.Sharing
import LogicSynthesis.Proofs.Network.Forgetting
import LogicSynthesis.Proofs.Cleanup.Rebuilding
import LogicSynthesis.Proofs.Cut.Faults
import LogicSynthesis.Proofs.Window.Extent
import LogicSynthesis.Proofs.Network.StackWalk
import LogicSynthesis.Proofs.Network.History
import LogicSynthesis.Proofs.Resynthesis.Collapse
import LogicSynthesis.Proofs.Resynthesis.Majority
import LogicSynthesis.Proofs.Network.CycleSearch
import LogicSynthesis.Proofs.FunctionCache.Literals
import LogicSynthesis.Proofs.TruthTable.Pointwise
import LogicSynthesis.Proofs.TruthTable.Shrinking
import LogicSynthesis.Proofs.TruthTable.Lanes
import LogicSynthesis.Proofs.Resynthesis.Merging
import LogicSynthesis.Proofs.Network.Detection
import LogicSynthesis.Proofs.TruthTable.Document
