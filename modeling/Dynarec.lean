import Dynarec.Cond
import Dynarec.Word
import Dynarec.Text.Hex
import Dynarec.Text.Fixed
import Dynarec.Guest.Register
import Dynarec.Guest.ItState
import Dynarec.Guest.Instr
import Dynarec.Guest.Decode
import Dynarec.Guest.Image
import Dynarec.Guest.Trace
import Dynarec.Guest.Trace.Collect
import Dynarec.Host.Register
import Dynarec.Host.Pinning
import Dynarec.Host.Instr
import Dynarec.Host.Branch
import Dynarec.Host.Constant
import Dynarec.Emit.Record
import Dynarec.Emit.SlotTable
import Dynarec.Emit.Setting
import Dynarec.Emit.RegisterUse
import Dynarec.Emit.Fixup
import Dynarec.Emit.Fault
import Dynarec.Emit.Monad
import Dynarec.Emit.Region
import Dynarec.Emit.Exit
import Dynarec.Emit.Spill
import Dynarec.Emit.HostCall
import Dynarec.Emit.Frame
import Dynarec.Lower.Operand
import Dynarec.Lower.Data
import Dynarec.Lower.Transfer
import Dynarec.Lower
import Dynarec.Resolve.Reach
import Dynarec.Resolve.Stub
import Dynarec.Resolve
import Dynarec.Compile
import Dynarec.Metrics
import Dynarec.Cli.Number
import Dynarec.Cli.Arguments
import Dynarec.Cli.Command
import Dynarec.Main
import Dynarec.Proofs.Emission
import Dynarec.Proofs.Emission.Register
import Dynarec.Proofs.Body.Chain
import Dynarec.Proofs.Body.Run
import Dynarec.Proofs.Bounds
import Dynarec.Proofs.Flow.Closed
import Dynarec.Proofs.Machine.Exec
import Dynarec.Proofs.Machine.Guest
import Dynarec.Proofs.Simulation.Data
import Dynarec.Proofs.Simulation.Stack
import Dynarec.Proofs.Machine.Access
import Dynarec.Proofs.Simulation.Record
import Dynarec.Proofs.Compiled
import Dynarec.Proofs.Run.Exit
import Dynarec.Proofs.Run.Branch
import Dynarec.Proofs.Run.Call
import Dynarec.Proofs.Run.Stub
import Dynarec.Proofs.Run.Answer
import Dynarec.Proofs.Simulation.Frame
import Dynarec.Proofs.Run.Instr
import Dynarec.Proofs.Guest.Run
import Dynarec.Proofs.Run.Unit
import Dynarec.Proofs.Lower.Flags
import Dynarec.Proofs.Run.Condition
import Dynarec.Proofs.Run.Link
import Dynarec.Proofs.Run.PcRead
import Dynarec.Proofs.Guest.Partition
import Dynarec.Proofs.Guest.Extent
import Dynarec.Proofs.Machine.Operands
import Dynarec.Proofs.Usage.Words
import Dynarec.Proofs.Usage.Listing
import Dynarec.Proofs.Usage.Unit
import Dynarec.Proofs.Usage.Marks
import Dynarec.Proofs.Usage.Stack
import Dynarec.Proofs.Usage.Registers
import Dynarec.Proofs.Loops.Graph
import Dynarec.Proofs.Loops.Checks
import Dynarec.Proofs.Loops.Counted
import Dynarec.Proofs.Loops.Order
import Dynarec.Proofs.Coverage
import Dynarec.Proofs.Guest.Assembly
import Dynarec.Proofs.Usage.Resolution
import Dynarec.Proofs.Simulation.Outcome
import Dynarec.Proofs.Run.Lowered
import Dynarec.Proofs.Guest.Limits
import Dynarec.Proofs.Emission.Region
import Dynarec.Proofs.Run.Frame
import Dynarec.Proofs.Emission.Lease
import Dynarec.Proofs.Run.Arguments
import Dynarec.Proofs.Run.Front
import Dynarec.Proofs.Run.Tail
import Dynarec.Proofs.Lower.Leases
import Dynarec.Proofs.Emission.Slots
import Dynarec.Proofs.Host.Displacement
import Dynarec.Proofs.Run.Constant
