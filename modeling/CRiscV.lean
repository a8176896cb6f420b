import CRiscV.Data.BitField
import CRiscV.Data.Bytes
import CRiscV.Data.Span
import CRiscV.Transition.Run
import CRiscV.Isa.Semantics
import CRiscV.Bus.Model
import CRiscV.Emulator.Thread
import CRiscV.Core.Fields
import CRiscV.Core.Pipeline
import CRiscV.Refinement.Hart
import CRiscV.Core.Csr
import CRiscV.Core.State
import CRiscV.Mmu.Access
import CRiscV.Bus.Access
import CRiscV.Refinement.Alu
import CRiscV.Refinement.Memory
import CRiscV.Refinement.Fault
import CRiscV.Refinement.Illegal
import CRiscV.Core.Stages
import CRiscV.Emulator.Handler
import CRiscV.Refinement.Trap
import CRiscV.Bus.Agreement
import CRiscV.Core.Prefetch
import CRiscV.Emulator.Agreement
import CRiscV.Refinement.Prefetch
import CRiscV.Refinement.Refetch
import CRiscV.Alloc.Bump
import CRiscV.Mmu.Run
import CRiscV.Refinement.Allocation
import CRiscV.Refinement.Blocks
import CRiscV.Bus.Run
import CRiscV.Refinement.Lock
import CRiscV.Refinement.ByteMap
import CRiscV.Core.Control
import CRiscV.Refinement.Dispatch
import CRiscV.Refinement.Alignment
import CRiscV.Refinement.Latches
import CRiscV.Mmu.Segment
import CRiscV.Emulator.Elf
import CRiscV.Emulator.Image
import CRiscV.Refinement.Load
import CRiscV.Emulator.Transfers
import CRiscV.Refinement.ReadOnly
import CRiscV.Refinement.Executable
import CRiscV.Refinement.Branch
import CRiscV.Refinement.Refill
import CRiscV.Refinement.History
import CRiscV.Refinement.Crash
import CRiscV.Refinement.Window
import CRiscV.Emulator.Accesses
import CRiscV.Refinement.Sharing
import CRiscV.Refinement.Malformed
import CRiscV.Refinement.Dirty
import CRiscV.Refinement.Allocator
import CRiscV.Bus.Block
import CRiscV.Refinement.Elements
import CRiscV.Refinement.Break
import CRiscV.Refinement.Descriptor
import CRiscV.Transition.Loop
import CRiscV.Refinement.Strings
import CRiscV.Refinement.Residue
import CRiscV.Refinement.RegisterFile
import CRiscV.Data.Region
import CRiscV.Emulator.Start
import CRiscV.Mmu.Cells
import CRiscV.Refinement.Process
import CRiscV.Isa.Platform
import CRiscV.Transition.Blocks
import CRiscV.Isa.Routine
import CRiscV.Refinement.Instruction
import CRiscV.Refinement.World
import CRiscV.Refinement.Program
import CRiscV.Refinement.Guest
import CRiscV.Refinement.Order
import CRiscV.Emulator.Boot
import CRiscV.Refinement.Boot
import CRiscV.Emulator.Effects
import CRiscV.Refinement.Provenance
import CRiscV.Refinement.Progress
import CRiscV.Refinement.Boundary
import CRiscV.Refinement.Meter
import CRiscV.Refinement.Rom
import CRiscV.Refinement.Stop
import CRiscV.Refinement.Permissions
