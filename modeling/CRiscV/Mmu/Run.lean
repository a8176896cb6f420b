/-
Runs of the MMU: its calls together with what they return, and what each call does
to the layout of the memory.
-/
import CRiscV.Data.BitField
import CRiscV.Mmu.Access

namespace CRiscV

/-- A call with what it returned. -/
inductive MmuEvent where
  | setperm (vaddr : Vaddr) (size : Size) (perm : Perm)
  | addMemory (heap : Heap) (addr : Vaddr) (size : Size) (perm : Perm) (added : Bool)
  | allocate (size : Size) (perm : Perm) (addr : Vaddr)
  | allocateRaw (size : Size) (addr : Vaddr)
  | writeFrom (src : Nat → BitVec 8) (vaddr : Vaddr) (size count : Size)
  | readInto (dst : Nat → BitVec 8) (vaddr : Vaddr) (size count : Size) (buf : Nat → BitVec 8)

def MmuStep (mmu : Mmu) (event : MmuEvent) (mmu' : Mmu) : Prop :=
  match event with
  | .setperm vaddr size perm => mmuSetperm mmu vaddr size perm = .ok mmu'
  | .addMemory heap addr size perm added =>
      mmuAddMemory heap mmu addr size perm = .ok (added, mmu')
  | .allocate size perm addr => mmuAllocate mmu size perm = .ok (addr, mmu')
  | .allocateRaw size addr => mmuAllocateRaw mmu size = .ok (addr, mmu')
  | .writeFrom src vaddr size count => mmuWriteFrom mmu src vaddr size = .ok (count, mmu')
  | .readInto dst vaddr size count buf => mmuReadInto mmu dst vaddr size = (count, buf, mmu')

/-- Memory laid out as before, with any contents. -/
def Mmu.SameLayout (mmu mmu' : Mmu) : Prop :=
  ∃ data perm dirty state,
    mmu' = { mmu with data := data, perm := perm, dirty := dirty, state := state }

theorem Mmu.SameLayout.refl (mmu : Mmu) : mmu.SameLayout mmu :=
  ⟨mmu.data, mmu.perm, mmu.dirty, mmu.state, rfl⟩

theorem Mmu.SameLayout.trans {mmu mmu' mmu'' : Mmu} (h : mmu.SameLayout mmu')
    (h' : mmu'.SameLayout mmu'') : mmu.SameLayout mmu'' := by
  obtain ⟨data, perm, dirty, state, rfl⟩ := h
  obtain ⟨data', perm', dirty', state', rfl⟩ := h'
  exact ⟨data', perm', dirty', state', rfl⟩

section Calls

variable {mmu mmu' : Mmu} {vaddr : Vaddr} {size : Size} {perm : Perm} {heap : Heap}

/-- The two assertions are the range check of the transfers. -/
theorem mmuSetperm_ok (h : mmuSetperm mmu vaddr size perm = .ok mmu') :
    mmu.outside vaddr size = false ∧
      mmu' = { mmu with
        perm := Span.fill (mmu.offset vaddr).toNat (mmu.offsetEnd vaddr size).toNat perm
          mmu.perm } := by
  obtain ⟨hbase, h⟩ := Transition.of_ite_error h
  obtain ⟨hend, h⟩ := Transition.of_ite_error h
  cases h
  refine ⟨?_, rfl⟩
  unfold Mmu.outside
  rw [decide_eq_false hbase, decide_eq_false hend]
  rfl

theorem mmuSetperm_layout (h : mmuSetperm mmu vaddr size perm = .ok mmu') :
    mmu.SameLayout mmu' := by
  rw [(mmuSetperm_ok h).2]
  exact ⟨mmu.data, _, mmu.dirty, mmu.state, rfl⟩

/-- The layout that `mmu_init` gives. -/
structure Mmu.Fresh (mmu : Mmu) (b : Vaddr) (n : Size) : Prop where
  sized : n.toNat < 2 ^ 63
  base : mmu.base = b
  size : mmu.size = n
  currVaddr : mmu.currVaddr = wide b
  dataBlock : mmu.dataBlock = n
  permBlock : mmu.permBlock = sizeofPerm * n
  dirtyBlock : mmu.dirtyBlock = n / dirtyPageSize + 1

theorem mmuInit_fresh {base : Vaddr} (h : mmuInit heap base size = .ok (some mmu)) :
    mmu.Fresh base size := by
  unfold mmuInit at h
  simp only at h
  split_ifs at h with hmmu hdata hdirty hperm
  · cases h
  · cases h
  · cases h
  · cases h
  · obtain ⟨m, hsetperm, h⟩ := Transition.exists_of_bind_ok h
    cases h
    obtain ⟨data, perm, dirty, state, rfl⟩ := mmuSetperm_layout hsetperm
    rw [Bool.not_eq_true', Bool.not_eq_false] at hdata
    exact ⟨heap.grants_lt .data size hdata, rfl, rfl, rfl, rfl, rfl, rfl⟩

theorem mmuWriteFrom_layout {src : Nat → BitVec 8} {count : Size}
    (h : mmuWriteFrom mmu src vaddr size = .ok (count, mmu')) : mmu.SameLayout mmu' := by
  unfold mmuWriteFrom at h
  split_ifs at h
  all_goals
    cases h
    exact ⟨_, _, _, _, rfl⟩

theorem mmuReadInto_layout {dst buf : Nat → BitVec 8} {count : Size}
    (h : mmuReadInto mmu dst vaddr size = (count, buf, mmu')) : mmu.SameLayout mmu' := by
  obtain ⟨state, hmmu⟩ := mmuReadInto_mmu mmu dst vaddr size
  rw [h] at hmmu
  exact ⟨mmu.data, mmu.perm, mmu.dirty, state, hmmu⟩

/-- The size rounded up to a multiple of 16, as far as 32 bits hold it. -/
theorem alignedSize_toNat (h : size.toNat + 15 < 2 ^ 32) :
    (alignedSize size).toNat = 16 * ((size.toNat + 15) / 16) := by
  have hsum : (size + 0x0f).toNat = size.toNat + 15 := by
    rw [BitVec.toNat_add]
    have hfifteen : (0x0f : Size).toNat = 15 := rfl
    omega
  rw [alignedSize, BitVec.toNat_and, hsum]
  have hround : size.toNat + 15 &&& 2 ^ 4 * (2 ^ 28 - 1) = 2 ^ 4 * ((size.toNat + 15) / 2 ^ 4) :=
    BitField.and_alignMask h
  exact hround

/-- An allocation returns 0 and does nothing, or places a block at the bump pointer,
as far as 32 bits hold it, and moves the pointer behind the block. -/
theorem mmuAllocate_cases {addr : Vaddr} (h : mmuAllocate mmu size perm = .ok (addr, mmu')) :
    addr = 0 ∧ mmu' = mmu ∨
      addr = mmu.currVaddr.setWidth 32 ∧
      alignedSize size < wide addr + alignedSize size ∧
      wide addr + alignedSize size < wide mmu.base + mmu.size ∧
      mmu.outside addr size = false ∧
      mmu' = { mmu with
        currVaddr := wide addr + alignedSize size
        perm := Span.fill (mmu.offset addr).toNat (mmu.offsetEnd addr size).toNat perm
          mmu.perm } := by
  unfold mmuAllocate at h
  simp only at h
  by_cases hfull : wide (mmu.currVaddr.setWidth 32) + alignedSize size ≥ wide mmu.base + mmu.size
  · rw [if_pos hfull] at h
    cases h
    exact Or.inl ⟨rfl, rfl⟩
  · rw [if_neg hfull] at h
    obtain ⟨hover, h⟩ := Transition.of_ite_error h
    obtain ⟨placed, hperm, h⟩ := Transition.exists_of_bind_ok h
    cases h
    obtain ⟨hinside, hplaced⟩ := mmuSetperm_ok hperm
    exact Or.inr ⟨rfl, BitVec.not_le.mp hover, BitVec.not_le.mp hfull, hinside, hplaced⟩

/-- The host grants all three blocks of a larger memory. -/
def Heap.GrantsAll (heap : Heap) (newSize : Size) : Prop :=
  heap.grants .data newSize = true ∧ heap.grants .perm newSize = true ∧
    heap.grants .dirty newSize = true

/-- An extension that is granted replaces the three blocks, one that is refused
replaces some of the first two. -/
theorem mmuExtend_cases (heap : Heap) (mmu : Mmu) (newSize : Size) :
    heap.GrantsAll newSize ∧ (∃ m, mmuExtend heap mmu newSize = (true, m) ∧
      Mmu.SameLayout { mmu with
        size := newSize, dataBlock := newSize, permBlock := newSize, dirtyBlock := newSize } m) ∨
    ¬ heap.GrantsAll newSize ∧ ∃ m dataBlock permBlock, mmuExtend heap mmu newSize = (false, m) ∧
      Mmu.SameLayout { mmu with dataBlock := dataBlock, permBlock := permBlock } m := by
  unfold mmuExtend Heap.GrantsAll
  cases hdata : heap.grants .data newSize with
  | false =>
      right
      exact ⟨fun hall => Bool.false_ne_true hall.1, mmu, mmu.dataBlock, mmu.permBlock, rfl,
        .refl mmu⟩
  | true =>
      cases hperm : heap.grants .perm newSize with
      | false =>
          right
          exact ⟨fun hall => Bool.false_ne_true hall.2.1, _, newSize, mmu.permBlock, rfl,
            _, _, _, _, rfl⟩
      | true =>
          cases hdirty : heap.grants .dirty newSize with
          | false =>
              right
              exact ⟨fun hall => Bool.false_ne_true hall.2.2, _, newSize, newSize, rfl,
                _, _, _, _, rfl⟩
          | true =>
              left
              exact ⟨⟨rfl, rfl, rfl⟩, _, rfl, _, _, _, _, rfl⟩

/-- A segment that reaches beyond the memory. -/
def Mmu.Extends (mmu : Mmu) (addr : Vaddr) (size : Size) : Prop :=
  wide addr + size > wide mmu.base + mmu.size

/-- The size that the memory then gets. -/
def Mmu.extendedSize (mmu : Mmu) (addr : Vaddr) (size : Size) : Size :=
  wide addr + size - wide mmu.base

/-- The outcomes of adding a segment. -/
inductive Mmu.AddMemory (mmu : Mmu) (heap : Heap) (addr : Vaddr) (size : Size) :
    Bool → Mmu → Prop
  | inside {mmu' : Mmu} (hinside : ¬ mmu.Extends addr size)
      (hlayout : Mmu.SameLayout { mmu with currVaddr := wide addr + size } mmu') :
      AddMemory mmu heap addr size true mmu'
  | extended {mmu' : Mmu} (hextends : mmu.Extends addr size)
      (hgrants : heap.GrantsAll (mmu.extendedSize addr size))
      (hlayout : Mmu.SameLayout { mmu with
        size := mmu.extendedSize addr size
        dataBlock := mmu.extendedSize addr size
        permBlock := mmu.extendedSize addr size
        dirtyBlock := mmu.extendedSize addr size } mmu') :
      AddMemory mmu heap addr size true mmu'
  | refused {mmu' : Mmu} (hextends : mmu.Extends addr size)
      (hgrants : ¬ heap.GrantsAll (mmu.extendedSize addr size)) (dataBlock permBlock : Size)
      (hlayout : Mmu.SameLayout { mmu with dataBlock := dataBlock, permBlock := permBlock } mmu') :
      AddMemory mmu heap addr size false mmu'

theorem mmuAddMemory_cases {addr : Vaddr} {added : Bool}
    (h : mmuAddMemory heap mmu addr size perm = .ok (added, mmu')) :
    mmu.AddMemory heap addr size added mmu' := by
  obtain ⟨-, h⟩ := Transition.of_ite_error h
  by_cases hextends : wide addr + size > wide mmu.base + mmu.size
  · rw [if_pos hextends] at h
    rcases mmuExtend_cases heap mmu (mmu.extendedSize addr size) with
      ⟨hgrants, m, hextend, hlayout⟩ | ⟨hgrants, m, dataBlock, permBlock, hextend, hlayout⟩
    · unfold Mmu.extendedSize at hextend
      rw [hextend] at h
      obtain ⟨m', hperm, h⟩ := Transition.exists_of_bind_ok h
      cases h
      exact .extended hextends hgrants (hlayout.trans (mmuSetperm_layout hperm))
    · unfold Mmu.extendedSize at hextend
      rw [hextend] at h
      cases h
      exact .refused hextends hgrants dataBlock permBlock hlayout
  · rw [if_neg hextends] at h
    obtain ⟨m', hperm, h⟩ := Transition.exists_of_bind_ok h
    cases h
    exact .inside hextends (mmuSetperm_layout hperm)

end Calls

/-! ## A host for concrete runs -/

/-- A host that grants every request that it may. -/
def generousHeap : Heap where
  grants := fun _ n => decide (n.toNat < 2 ^ 63)
  data := fun _ => 0
  perm := fun _ => 0
  dirty := fun _ => false
  grants_lt := fun _ _ h => of_decide_eq_true h

/-- A segment added as `elf_load` adds it. -/
def loadEvent (addr : Vaddr) (size : Size) : MmuEvent :=
  .addMemory generousHeap addr size (mpermWrite ||| mpermRaw) true

end CRiscV
