/-
The start of the emulator: `emulator_init` and `emulator_run` of emulator.c, up to the
threads.
-/
import Mathlib.Logic.Function.Basic
import CRiscV.Core.State
import CRiscV.Emulator.Elf

namespace CRiscV

/-- `STACK_SIZE`. -/
def stackSize : Word := 1 <<< 12

/-- A string of the host: its bytes up to the terminator.  No object is larger than
`PTRDIFF_MAX`. -/
structure CString where
  bytes : List (BitVec 8)
  nonzero : ∀ b ∈ bytes, b ≠ 0
  sized : bytes.length + 1 < 2 ^ 63

def strlen (s : CString) : Size := BitVec.ofNat 64 s.bytes.length

/-- What stands at the string's address: its bytes, and 0 behind them. -/
def CString.byte (s : CString) (i : Nat) : BitVec 8 := s.bytes.getD i 0

/-- `"./program_name"`. -/
def argv0 : CString where
  bytes :=
    [0x2e, 0x2f, 0x70, 0x72, 0x6f, 0x67, 0x72, 0x61, 0x6d, 0x5f, 0x6e, 0x61, 0x6d, 0x65]
  nonzero := by decide
  sized := by decide

/-- The memory that `emulator_init` leaves; `none` is a null pointer.  The code of
`video_init` is not in the repository, and it is given the MMU. -/
def emulatorInit (heap : Heap) (videoInit : Mmu → Option Mmu) : Except Abort (Option Mmu) := do
  let mmu ← mmuInit heap ramStart (wide ramSize)
  return mmu.bind videoInit

/-- An allocation for a string, and the copy of the string into it. -/
def allocateString (bus : Bus) (s : CString) : Except Abort (Vaddr × Bus) := do
  let (av, mmu) ← mmuAllocate bus.mmu (strlen s + 1) (mpermRaw ||| mpermWrite)
  let (_, bus) ← busWriteMultiple { bus with mmu := mmu } (wide av) s.byte (strlen s + 1) .byte
  return (av, bus)

/-- The macro `push`. -/
def push (m : Machine) (x : Word) : Except Abort Machine := do
  let sp := m.core.registers 2 - 4
  let bus ← busWriteSingle m.bus (wide sp) x .word
  return { m with
    core := { m.core with registers := Function.update m.core.registers 2 sp }
    bus := bus }

/-- A core at its first instruction, and the block that its stack was given. -/
structure Started where
  stack : Vaddr
  machine : Machine

/-- `emulator_run` up to `core_start`.  `NUMCORES` is 1, so the loop has one turn, for the
core that `cpu_init` has cleared. -/
def emulatorRun (elf : Elf32) (argv1 : CString) (bus : Bus) : Except Abort Started := do
  let (stack, mmu) ← mmuAllocateRaw bus.mmu (wide stackSize)
  let stackTop := stack + stackSize
  let core := coreInit cpuInitCore 0 elf.entry
  let core := { core with registers := Function.update core.registers 1 0x1337c0de }
  let (av0, bus) ← allocateString { bus with mmu := mmu } argv0
  let (av1, bus) ← allocateString bus argv1
  let core := { core with registers := Function.update core.registers 2 stackTop }
  let m : Machine := { core := core, bus := bus, calls := [] }
  let m ← push m 0 -- auxp
  let m ← push m 0 -- envp
  let m ← push m 0 -- the end of argv
  let m ← push m av1
  let m ← push m av0
  let m ← push m 42 -- argc
  return { stack := stack, machine := m }

end CRiscV
