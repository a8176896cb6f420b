/-
The memory management unit: mmu.h and mmu.c.

A `size_t` is a `BitVec 64` and a `vaddr_t` a `BitVec 32`, so that every sum and
difference wraps where the source's does.  The three arrays behind an MMU are
total maps from the index, and the sizes of the blocks that the host granted for
them are kept beside the maps.  An index outside its block is undefined behaviour
in the source.  Here it reads and writes the map past the block, as on a host where
what stands behind a block is the program's and nobody else's.  Only an extension
leaves a memory with such indices, and a result that is about extended memory says
so: it asks that the blocks cover the memory, keeps a record of the entries that are
touched, or names the host.
-/
import Mathlib.Data.BitVec
import CRiscV.Data.Span
import CRiscV.Transition.Run

namespace CRiscV

/-- How a call may fail to return. -/
inductive Abort where
  /-- An `assert` failed. -/
  | assertion
  /-- A handler pointer was null. -/
  | nullHandler
  /-- The bus mutex was locked a second time. -/
  | deadlock
  /-- A local array was indexed outside its bounds. -/
  | outOfBounds
  deriving DecidableEq, Repr

abbrev Word := BitVec 32
abbrev Vaddr := BitVec 32
abbrev Size := BitVec 64

/-- The conversion of a `uint32_t` to a `size_t`. -/
def wide (v : BitVec 32) : Size := v.setWidth 64

/-- `mperm_t`. -/
abbrev Perm := BitVec 32

def mpermExec : Perm := 1
def mpermWrite : Perm := 2
def mpermRead : Perm := 4
def mpermRaw : Perm := 8

/-- `mmu_state_t`. -/
inductive MmuState where
  | ok | readPageFault | writePageFault | accessDenied
  deriving DecidableEq, Repr

/-- `mmu_t`. -/
structure Mmu where
  size : Size
  base : Vaddr
  currVaddr : Size
  data : Nat → BitVec 8
  perm : Nat → Perm
  dirty : Nat → Bool
  state : MmuState
  /-- The sizes in bytes of the blocks behind `data`, `perm` and `dirty`. -/
  dataBlock : Size
  permBlock : Size
  dirtyBlock : Size

/-- `DIRTY_PAGE_SIZE`. -/
def dirtyPageSize : Size := 64

/-- `sizeof(mperm_t)`. -/
def sizeofPerm : Size := 4

/-- The blocks an MMU asks the host for. -/
inductive Block where
  | mmu | data | dirty | perm
  deriving DecidableEq, Repr

/-- What the host's allocator does in one call: which requests it grants, and
what stands in memory that it hands out without clearing it. -/
structure Heap where
  grants : Block → Size → Bool
  data : Nat → BitVec 8
  perm : Nat → Perm
  dirty : Nat → Bool
  /-- No object is larger than `PTRDIFF_MAX`. -/
  grants_lt : ∀ b n, grants b n = true → n.toNat < 2 ^ 63

/-- The index that the source computes as `vaddr - mmu->base`: a 32-bit
difference, widened. -/
def Mmu.offset (mmu : Mmu) (vaddr : Vaddr) : Size := wide (vaddr - mmu.base)

/-- The exclusive end of a loop that starts at that index. -/
def Mmu.offsetEnd (mmu : Mmu) (vaddr : Vaddr) (size : Size) : Size := mmu.offset vaddr + size

def mmuSetperm (mmu : Mmu) (vaddr : Vaddr) (size : Size) (perm : Perm) : Except Abort Mmu :=
  if vaddr < mmu.base then .error .assertion
  else if wide vaddr + size > wide mmu.base + mmu.size then .error .assertion
  else
    .ok { mmu with
      perm := Span.fill (mmu.offset vaddr).toNat (mmu.offsetEnd vaddr size).toNat perm mmu.perm }

/-- `mmu_init`; `none` is the null pointer.  The source leaves `state` unset, and
nothing reads it before a transfer has set it. -/
def mmuInit (heap : Heap) (base : Vaddr) (size : Size) : Except Abort (Option Mmu) :=
  let dirtySize := size / dirtyPageSize + 1
  let permSize := sizeofPerm * size
  if !heap.grants .mmu 56 then .ok none
  else if !heap.grants .data size then .ok none
  else if !heap.grants .dirty dirtySize then .ok none
  else if !heap.grants .perm permSize then .ok none
  else do
    let mmu : Mmu :=
      { size := size
        base := base
        currVaddr := wide base
        data := Span.fill 0 size.toNat 0 heap.data
        perm := heap.perm
        dirty := Span.fill 0 dirtySize.toNat false heap.dirty
        state := .ok
        dataBlock := size
        permBlock := permSize
        dirtyBlock := dirtySize }
    let mmu ← mmuSetperm mmu mmu.base mmu.size (mpermWrite ||| mpermRaw)
    return some mmu

/-- What `realloc` leaves in a block: the entries below the smaller of the two
sizes are kept, the others are whatever the host has there. -/
def reallocated {α : Type} (kept : Nat) (old fresh : Nat → α) : Nat → α :=
  Span.copy 0 kept old fresh

/-- The branch of `mmu_add_memory` that extends the memory.  The flag is false
when the host refused a block; the blocks replaced before stay replaced. -/
def mmuExtend (heap : Heap) (mmu : Mmu) (newSize : Size) : Bool × Mmu :=
  if !heap.grants .data newSize then (false, mmu)
  else
    let mmu := { mmu with
      data := reallocated (min mmu.dataBlock.toNat newSize.toNat) mmu.data heap.data
      dataBlock := newSize }
    if !heap.grants .perm newSize then (false, mmu)
    else
      let mmu := { mmu with
        perm :=
          reallocated (min mmu.permBlock.toNat newSize.toNat / sizeofPerm.toNat) mmu.perm heap.perm
        permBlock := newSize }
      if !heap.grants .dirty newSize then (false, mmu)
      else
        let mmu := { mmu with
          dirty := reallocated (min mmu.dirtyBlock.toNat newSize.toNat) mmu.dirty heap.dirty
          dirtyBlock := newSize }
        (true, { mmu with size := newSize })

def mmuAddMemory (heap : Heap) (mmu : Mmu) (addr : Vaddr) (size : Size) (perm : Perm) :
    Except Abort (Bool × Mmu) :=
  if addr < mmu.base then .error .assertion
  else if wide addr + size > wide mmu.base + mmu.size then
    match mmuExtend heap mmu ((wide addr + size) - wide mmu.base) with
    | (false, mmu) => .ok (false, mmu)
    | (true, mmu) => do
        let mmu ← mmuSetperm mmu addr size perm
        return (true, mmu)
  else do
    let mmu ← mmuSetperm { mmu with currVaddr := wide addr + size } addr size perm
    return (true, mmu)

def alignedSize (size : Size) : Size := (size + 0x0f) &&& 0xfffffff0

/-- `mmu_allocate`: the address, or 0 when the block does not fit.  The bump
pointer is read through a `uint32_t`. -/
def mmuAllocate (mmu : Mmu) (size : Size) (perm : Perm) : Except Abort (Vaddr × Mmu) :=
  let currVaddr : Vaddr := mmu.currVaddr.setWidth 32
  if wide currVaddr + alignedSize size ≥ wide mmu.base + mmu.size then .ok (0, mmu)
  else if wide currVaddr + alignedSize size ≤ alignedSize size then .error .assertion
  else do
    let mmu ← mmuSetperm { mmu with currVaddr := wide currVaddr + alignedSize size }
      currVaddr size perm
    return (currVaddr, mmu)

def mmuAllocateRaw (mmu : Mmu) (size : Size) : Except Abort (Vaddr × Mmu) :=
  mmuAllocate mmu size (mpermWrite ||| mpermRaw)

/-- The test of one byte in the loop of `mmu_check_access`. -/
def permAllows (perm p : Perm) : Bool :=
  (p &&& mpermRead) == perm || (p &&& mpermWrite) == perm || (p &&& mpermExec) == perm ||
    ((p &&& mpermRaw) == mpermRaw && perm == mpermWrite)

def mmuCheckAccess (mmu : Mmu) (vaddr : Vaddr) (size : Size) (perm : Perm) : Bool :=
  Span.all (mmu.offset vaddr).toNat (mmu.offsetEnd vaddr size).toNat (permAllows perm) mmu.perm

/-- The range check that both transfers begin with. -/
def Mmu.outside (mmu : Mmu) (vaddr : Vaddr) (size : Size) : Bool :=
  vaddr < mmu.base || wide vaddr + size > wide mmu.base + mmu.size

/-- The permission of a byte after a write to it. -/
def permWritten (p : Perm) : Perm :=
  if p &&& mpermRaw = mpermRaw then mpermRead ||| mpermWrite ||| (p &&& mpermExec) else p

def mmuWriteFrom (mmu : Mmu) (src : Nat → BitVec 8) (vaddr : Vaddr) (size : Size) :
    Except Abort (Size × Mmu) :=
  if mmu.outside vaddr size then .ok (0, { mmu with state := .readPageFault })
  else if wide vaddr > wide mmu.base + mmu.size then .error .assertion
  else if !mmuCheckAccess mmu vaddr size mpermWrite then
    .ok (0, { mmu with state := .accessDenied })
  else
    let lo := mmu.offset vaddr
    let hi := mmu.offsetEnd vaddr size
    .ok (size,
      { mmu with
        state := .ok
        data := Span.copy lo.toNat (lo.toNat + size.toNat) src mmu.data
        perm := Span.update lo.toNat hi.toNat (fun _ p => permWritten p) mmu.perm
        dirty := Span.fill (lo / dirtyPageSize).toNat (hi / dirtyPageSize).toNat true mmu.dirty })

/-- `mmu_read_into`: the size transferred, the destination, and the MMU. -/
def mmuReadInto (mmu : Mmu) (dst : Nat → BitVec 8) (vaddr : Vaddr) (size : Size) :
    Size × (Nat → BitVec 8) × Mmu :=
  if mmu.outside vaddr size then (0, dst, { mmu with state := .writePageFault })
  else if mmuCheckAccess mmu vaddr size mpermRead then
    (size, Span.copy 0 size.toNat (fun i => mmu.data ((mmu.offset vaddr).toNat + i)) dst,
      { mmu with state := .ok })
  else (0, dst, { mmu with state := .accessDenied })

end CRiscV
