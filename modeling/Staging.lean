import Staging.Boot.Seed
import Staging.Boot.Simulation
import Staging.Code.Scripted
import Staging.Code.X86
import Staging.Firmware.Table
import Staging.Task.Handoff
import Staging.Proofs.Address
import Staging.Proofs.Extent
import Staging.Proofs.Heap.Spans
import Staging.Proofs.Heap.Region
import Staging.Proofs.Heap.Basic
import Staging.Proofs.Heap.Lending
import Staging.Proofs.Heap.Accounts
import Staging.Proofs.Heap.Lent
import Staging.Proofs.Heap.Offers
import Staging.Proofs.Sweep.Depth
import Staging.Proofs.Sweep.Pass
import Staging.Proofs.Sweep.Order
import Staging.Proofs.Sweep.Stability
import Staging.Proofs.Sweep.Search
import Staging.Proofs.Sweep.Division
import Staging.Proofs.Sweep.Basic
import Staging.Proofs.Sweep.Owners
import Staging.Proofs.Task.Action
import Staging.Proofs.Task.Borrowing
import Staging.Proofs.Task.Source
import Staging.Proofs.Task.Target
import Staging.Proofs.Task.Policy
import Staging.Proofs.Task.Chunks
import Staging.Proofs.Task.Reach
import Staging.Proofs.Task.Separation
import Staging.Proofs.Task.Ledger
import Staging.Proofs.Task.Teardown
import Staging.Proofs.Task.Marks
import Staging.Proofs.Task.Failure
import Staging.Proofs.Task.PostArea
import Staging.Proofs.Task.Placement
import Staging.Proofs.Task.Safety
import Staging.Proofs.Task.Ram
import Staging.Proofs.Code.Emission
import Staging.Proofs.Task.Delivery
import Staging.Proofs.Sweep.Shape
import Staging.Proofs.Task.Attempts
import Staging.Proofs.Task.Shape
import Staging.Proofs.Code.Plan
import Staging.Proofs.Task.Calls
import Staging.Proofs.Code.Format
import Staging.Proofs.Code.Decoding
import Staging.Proofs.Code.Framing
import Staging.Proofs.Code.Stubs
import Staging.Proofs.Task.Disassembly
import Staging.Proofs.Heap.Used
import Staging.Proofs.Heap.History
import Staging.Proofs.Task.Recorded
import Staging.Proofs.Sweep.Slots
import Staging.Proofs.Sweep.Composition
import Staging.Proofs.Sweep.Determined
import Staging.Proofs.Task.Listing
import Staging.Proofs.Boot.Accounting
import Staging.Proofs.Boot.Seeding
import Staging.Proofs.Task.Shift
import Staging.Proofs.Task.Refusals
import Staging.Proofs.Task.Steady
import Staging.Proofs.Task.FixedTarget
import Staging.Proofs.Task.Flexible
import Staging.Proofs.Task.Ordering
import Staging.Proofs.Heap.FirstFit
import Staging.Proofs.Heap.Canonical
import Staging.Proofs.Heap.Undo
import Staging.Proofs.Heap.Header
import Staging.Proofs.Boot.Cover
