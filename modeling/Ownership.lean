import Ownership.Code.Printer
import Ownership.Emit.Glue
import Ownership.Emit.Scope
import Ownership.Machine.Exec
import Ownership.Proofs.Measure
import Ownership.Proofs.Stops
import Ownership.Proofs.Containment
import Ownership.Proofs.Queries
import Ownership.Proofs.Geometry
import Ownership.Proofs.Leaves
import Ownership.Proofs.Flattening
import Ownership.Proofs.Tables
import Ownership.Proofs.Words
import Ownership.Proofs.Memory
import Ownership.Proofs.Evaluation
import Ownership.Proofs.Accesses
import Ownership.Proofs.Arenas
import Ownership.Proofs.Accounting
import Ownership.Proofs.Shapes
import Ownership.Proofs.RoundTrip
import Ownership.Proofs.Stage
import Ownership.Proofs.Operations
import Ownership.Proofs.Segment
import Ownership.Proofs.Labels
import Ownership.Proofs.Headers
import Ownership.Proofs.Actions
import Ownership.Proofs.Emits
import Ownership.Proofs.Calls
import Ownership.Proofs.Units
import Ownership.Proofs.Blocks
import Ownership.Proofs.Ends
import Ownership.Proofs.Release
import Ownership.Proofs.Owned
import Ownership.Proofs.Order
import Ownership.Proofs.Display
import Ownership.Proofs.Literals
import Ownership.Proofs.PoolCalls
import Ownership.Proofs.Handles
import Ownership.Proofs.Interning
import Ownership.Proofs.Allocation
import Ownership.Proofs.Alignment
import Ownership.Proofs.Counting
import Ownership.Proofs.Counter
import Ownership.Proofs.Values
import Ownership.Proofs.Client
import Ownership.Proofs.Worklist
import Ownership.Proofs.LostRequests
import Ownership.Proofs.Paths
import Ownership.Proofs.Sessions
import Ownership.Proofs.Faults
import Ownership.Proofs.Checks
import Ownership.Proofs.Guards
import Ownership.Proofs.NewBlocks
import Ownership.Proofs.Coupling
import Ownership.Proofs.ScopeExit
import Ownership.Proofs.Progress
import Ownership.Proofs.Failures
import Ownership.Proofs.Expansion
import Ownership.Proofs.Nesting
import Ownership.Proofs.Chains
import Ownership.Proofs.Transitions
import Ownership.Proofs.Termination
import Ownership.Proofs.Effects
import Ownership.Proofs.StackSlots
