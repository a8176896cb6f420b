/-
From the command line to the threads: `load_file`, `emulator_load_elf` and `load_into_ram` of
emulator.c, and `main` of main.c.
-/
import CRiscV.Emulator.Start

namespace CRiscV

/-- What the host has for a start: the memory that it grants, the code of `video_init`, and
the contents of the file that `argv[1]` names, if it can be opened. -/
structure BootHost where
  heap : Heap
  videoInit : Mmu → Option Mmu
  file : Option (List (BitVec 8))
  grantsFile : Bool
  grantsElf : Bool
  heaps : Nat → Heap

/-- Why `main` does not come to the threads. -/
inductive BootFailure where
  | aborted (abort : Abort)
  /-- The pointer of `emulator_init` or of `mmu_init` is null, and is followed. -/
  | noEmulator
  /-- `elf` is null or was never set, and is followed. -/
  | noElf
  deriving DecidableEq, Repr

/-- `load_file`; `none` is the null pointer.  The size is kept in a `uint32_t`, and as many
bytes are read. -/
def loadFile (host : BootHost) : Except Abort (Option ElfFile) :=
  match host.file with
  | none => .ok none
  | some contents =>
      let size : Word := BitVec.ofNat 32 contents.length
      if size = 0 then .error .assertion
      else if !host.grantsFile then .ok none
      else .ok (some { bytes := contents.take size.toNat })

/-- `emulator_load_elf`; without a file it returns false, and `elf` stays unset. -/
def emulatorLoadElf (host : BootHost) (mmu : Mmu) : Except BootFailure (Option Elf32 × Mmu) := do
  match ← (loadFile host).mapError .aborted with
  | none => return (none, mmu)
  | some file =>
      match ← (elfLoad host.grantsElf host.heaps file mmu).mapError .aborted with
      | (none, _) => .error .noElf
      | (some elf, mmu) =>
          if elf.entry = 0 then .error (.aborted .assertion) else return (some elf, mmu)

/-- `main` up to `core_start`.  It does not look at what `emulator_load_elf` returns. -/
def main (host : BootHost) (argv1 : CString) : Except BootFailure Started := do
  match ← (emulatorInit host.heap host.videoInit).mapError .aborted with
  | none =>
      -- the file is read before the null pointer is followed
      let _ ← (loadFile host).mapError .aborted
      .error .noEmulator
  | some mmu =>
      match ← emulatorLoadElf host mmu with
      | (none, _) => .error .noElf
      | (some elf, mmu) => (emulatorRun elf argv1 (mainBus mmu)).mapError .aborted

/-- `load_into_ram`: word by word, without a look at the status of the bus. -/
def loadIntoRam (bus : Bus) (baseAddr : Word) (rom : Nat → Word) (sizeInBytes : Size) :
    Except Abort Bus :=
  (List.range (sizeInBytes >>> 2).toNat).foldlM
    (fun bus i => busWriteSingle bus (wide baseAddr + BitVec.ofNat 64 i * 4) (rom i) .word) bus

end CRiscV
