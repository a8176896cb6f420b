/-
The loader: elf32.h and elf32.c.

The file is a bounded array.  The loader is given a pointer to it and no size, so
a read behind its end is undefined behaviour in the source; here it ends the call.
Each field is read where the source reads it.
-/
import CRiscV.Data.Bytes
import CRiscV.Mmu.Model

namespace CRiscV

/-- What `elf_start` points to. -/
structure ElfFile where
  bytes : List (BitVec 8)

def ElfFile.size (file : ElfFile) : Nat := file.bytes.length

def ElfFile.byte (file : ElfFile) (i : Nat) : BitVec 8 := file.bytes.getD i 0

/-- The `Elf32_Half` at an offset. -/
def ElfFile.halfAt (file : ElfFile) (off : Nat) : BitVec 16 :=
  Bytes.ofBytes 16 2 fun i => file.byte (off + i)

/-- The `Elf32_Word`, `Elf32_Off` or `Elf32_Addr` at an offset. -/
def ElfFile.wordAt (file : ElfFile) (off : Nat) : Word :=
  Bytes.ofBytes 32 4 fun i => file.byte (off + i)

def ElfFile.uchar (file : ElfFile) (off : Nat) : Except Abort (BitVec 8) :=
  if off + 1 ≤ file.size then .ok (file.byte off) else .error .outOfBounds

def ElfFile.half (file : ElfFile) (off : Nat) : Except Abort (BitVec 16) :=
  if off + 2 ≤ file.size then .ok (file.halfAt off) else .error .outOfBounds

def ElfFile.word (file : ElfFile) (off : Nat) : Except Abort Word :=
  if off + 4 ≤ file.size then .ok (file.wordAt off) else .error .outOfBounds

/-- The bytes that a `memcpy` of `count` bytes takes are in the file. -/
def ElfFile.copied (file : ElfFile) (off count : Nat) : Except Abort Unit :=
  if count = 0 ∨ off + count ≤ file.size then .ok () else .error .outOfBounds

/-! ## Offsets of the fields that the loader reads -/

namespace Elf32Ehdr

def eiClass : Nat := 4
def eiData : Nat := 5
def eEntry : Nat := 24
def ePhoff : Nat := 28
def ePhnum : Nat := 44
/-- `sizeof(Elf32_Ehdr)`. -/
def size : Nat := 52

end Elf32Ehdr

namespace Elf32Phdr

def pType : Nat := 0
def pOffset : Nat := 4
def pVaddr : Nat := 8
def pFilesz : Nat := 16
def pMemsz : Nat := 20
def pFlags : Nat := 24
/-- `sizeof(Elf32_Phdr)`. -/
def size : Nat := 32

end Elf32Phdr

/-! ## elf_load -/

structure Elf32 where
  entry : Vaddr
  deriving DecidableEq, Repr

/-- The `perm` of the loop, from `p_flags`. -/
def segmentPerm (f : Word) : Perm :=
  (if f &&& 4 ≠ 0 then mpermRead else 0) |||
    (if f &&& 2 ≠ 0 then mpermWrite else 0) |||
    (if f &&& 1 ≠ 0 then mpermExec else 0) |||
    (if f &&& 4 ≠ 0 ∧ f &&& 2 = 0 then mpermRaw else 0)

/-- The body of the loop for the header at `phdr`, with its `p_type` found to be 1.
The flag is false when the memory was refused. -/
def elfLoadSegment (heap : Heap) (file : ElfFile) (phdr : Nat) (mmu : Mmu) :
    Except Abort (Bool × Mmu) := do
  let vaddr ← file.word (phdr + Elf32Phdr.pVaddr)
  let memsz ← file.word (phdr + Elf32Phdr.pMemsz)
  let (added, mmu) ← mmuAddMemory heap mmu vaddr (wide memsz) (mpermWrite ||| mpermRaw)
  if !added then return (false, mmu)
  else
    let offset ← file.word (phdr + Elf32Phdr.pOffset)
    let filesz ← file.word (phdr + Elf32Phdr.pFilesz)
    -- a write that the MMU refuses is not noticed
    let (count, mmu) ←
      mmuWriteFrom mmu (fun i => file.byte (offset.toNat + i)) vaddr (wide filesz)
    file.copied offset.toNat count.toNat
    let flags ← file.word (phdr + Elf32Phdr.pFlags)
    let mmu ← mmuSetperm mmu vaddr (wide filesz) (segmentPerm flags)
    return (true, mmu)

/-- One turn of the loop. -/
def elfLoadPhdr (heap : Heap) (file : ElfFile) (phdr : Nat) (mmu : Mmu) :
    Except Abort (Bool × Mmu) := do
  let type ← file.word (phdr + Elf32Phdr.pType)
  if type = 1 then elfLoadSegment heap file phdr mmu else return (true, mmu)

/-- The loop over the headers with the given indices.  Turn `i` has the host's
`heaps i`. -/
def elfLoadLoop (heaps : Nat → Heap) (file : ElfFile) (phoff : Nat) :
    List Nat → Mmu → Except Abort (Bool × Mmu)
  | [], mmu => .ok (true, mmu)
  | i :: rest, mmu => do
      let (loaded, mmu) ← elfLoadPhdr (heaps i) file (phoff + Elf32Phdr.size * i) mmu
      if loaded then elfLoadLoop heaps file phoff rest mmu else return (false, mmu)

/-- `elf_load`; `granted` is whether `malloc` gives it an `Elf32`, and `none` is the
null pointer. -/
def elfLoad (granted : Bool) (heaps : Nat → Heap) (file : ElfFile) (mmu : Mmu) :
    Except Abort (Option Elf32 × Mmu) := do
  if !granted then return (none, mmu)
  else
    let eiClass ← file.uchar Elf32Ehdr.eiClass
    if eiClass ≠ 1 then .error .assertion
    else
      let eiData ← file.uchar Elf32Ehdr.eiData
      if eiData ≠ 1 then .error .assertion
      else
        let phoff ← file.word Elf32Ehdr.ePhoff
        let phnum ← file.half Elf32Ehdr.ePhnum
        let (loaded, mmu) ← elfLoadLoop heaps file phoff.toNat (List.range phnum.toNat) mmu
        if !loaded then return (none, mmu)
        else
          let entry ← file.word Elf32Ehdr.eEntry
          return (some { entry := entry }, mmu)

end CRiscV
