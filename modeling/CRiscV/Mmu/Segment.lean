/-
The effect of `mmu_add_memory` and `mmu_setperm` on the arrays of an MMU, for
segments with 32-bit sizes.
-/
import CRiscV.Mmu.Run

namespace CRiscV

theorem mmuSetperm_inside {mmu : Mmu} {vaddr : Vaddr} {size : Size}
    (h : mmu.outside vaddr size = false) (perm : Perm) :
    mmuSetperm mmu vaddr size perm =
      .ok { mmu with
        perm := Span.fill (mmu.offset vaddr).toNat (mmu.offsetEnd vaddr size).toNat perm
          mmu.perm } := by
  simp only [Mmu.outside, Bool.or_eq_false_iff, decide_eq_false_iff_not] at h
  unfold mmuSetperm
  rw [if_neg h.1, if_neg h.2]

/-! ## Ranges of 32-bit sizes -/

section Range

variable {mmu : Mmu} {vaddr : Vaddr} {n : Word}

theorem Mmu.Holds.outside (hsized : mmu.size.toNat < 2 ^ 63) (h : mmu.Holds vaddr n.toNat) :
    mmu.outside vaddr (wide n) = false := by
  have hlt := wide_lt n
  rw [Mmu.outside_eq_false_iff hsized (by omega), wide_toNat]
  exact h

theorem Mmu.offsetEnd_word (hbase : mmu.base.toNat ≤ vaddr.toNat) :
    (mmu.offsetEnd vaddr (wide n)).toNat = vaddr.toNat - mmu.base.toNat + n.toNat := by
  have hlt := wide_lt n
  rw [mmu.offsetEnd_toNat vaddr (by omega), Mmu.offset_toNat hbase, wide_toNat]

theorem mmuSetperm_word (hsized : mmu.size.toNat < 2 ^ 63) (h : mmu.Holds vaddr n.toNat)
    (perm : Perm) :
    mmuSetperm mmu vaddr (wide n) perm =
      .ok { mmu with
        perm := Span.fill (vaddr.toNat - mmu.base.toNat)
          (vaddr.toNat - mmu.base.toNat + n.toNat) perm mmu.perm } := by
  rw [mmuSetperm_inside (h.outside hsized), Mmu.offsetEnd_word h.1, Mmu.offset_toNat h.1]

theorem Mmu.written_word (hbase : mmu.base.toNat ≤ vaddr.toNat) (src : Nat → BitVec 8) :
    mmu.written src vaddr (wide n) =
      { mmu with
        state := .ok
        data := Span.copy (vaddr.toNat - mmu.base.toNat)
          (vaddr.toNat - mmu.base.toNat + n.toNat) src mmu.data
        perm := Span.update (vaddr.toNat - mmu.base.toNat)
          (vaddr.toNat - mmu.base.toNat + n.toNat) (fun _ p => permWritten p) mmu.perm
        dirty := Span.fill ((vaddr.toNat - mmu.base.toNat) / dirtyPageSize.toNat)
          ((vaddr.toNat - mmu.base.toNat + n.toNat) / dirtyPageSize.toNat) true mmu.dirty } := by
  simp only [Mmu.written, BitVec.toNat_udiv, Mmu.offsetEnd_word hbase, Mmu.offset_toNat hbase,
    wide_toNat]

/-- A write to bytes that let it pass. -/
theorem mmuWriteFrom_word (hsized : mmu.size.toNat < 2 ^ 63) (h : mmu.Holds vaddr n.toNat)
    (hperm : ∀ x, vaddr.toNat - mmu.base.toNat ≤ x →
      x < vaddr.toNat - mmu.base.toNat + n.toNat → (mmu.perm x).Writable)
    (src : Nat → BitVec 8) :
    mmuWriteFrom mmu src vaddr (wide n) = .ok (wide n, mmu.written src vaddr (wide n)) := by
  have hlt := wide_lt n
  have haccepts := @Mmu.accepts_write_iff mmu vaddr (wide n) hsized (by omega)
  rw [wide_toNat] at haccepts
  apply mmuWriteFrom_accepted (by omega)
  refine haccepts.mpr ⟨h, ?_⟩
  intro i hi
  unfold Mmu.permFrom
  rw [Mmu.offset_toNat h.1]
  exact hperm _ (by omega) (by omega)

end Range

/-! ## Growing -/

instance (heap : Heap) (n : Size) : Decidable (heap.GrantsAll n) :=
  inferInstanceAs (Decidable (_ ∧ _))

instance (mmu : Mmu) (addr : Vaddr) (size : Size) : Decidable (mmu.Extends addr size) :=
  inferInstanceAs (Decidable (_ > _))

/-- The memory in front of the `mmu_setperm` of `mmu_add_memory`: a larger one when the
segment reaches beyond it. -/
def Mmu.grown (mmu : Mmu) (heap : Heap) (addr : Vaddr) (size : Size) : Mmu :=
  if mmu.Extends addr size then (mmuExtend heap mmu (mmu.extendedSize addr size)).2
  else { mmu with currVaddr := wide addr + size }

/-- The permissions that survive an extension, which counts bytes where the block has
entries of `mperm_t`. -/
def keptPerms (permBlock newSize : Nat) : Nat := min permBlock newSize / sizeofPerm.toNat

section Grown

variable {mmu mmu' : Mmu} {heap : Heap} {addr : Vaddr} {size : Size} {perm : Perm}

theorem mmuExtend_granted (h : heap.GrantsAll size) (mmu : Mmu) :
    mmuExtend heap mmu size =
      (true, { mmu with
        size := size
        data := reallocated (min mmu.dataBlock.toNat size.toNat) mmu.data heap.data
        perm := reallocated (keptPerms mmu.permBlock.toNat size.toNat) mmu.perm heap.perm
        dirty := reallocated (min mmu.dirtyBlock.toNat size.toNat) mmu.dirty heap.dirty
        dataBlock := size
        permBlock := size
        dirtyBlock := size }) := by
  obtain ⟨hdata, hperm, hdirty⟩ := h
  unfold mmuExtend
  rw [hdata, hperm, hdirty]
  rfl

theorem Mmu.grown_inside (h : ¬ mmu.Extends addr size) :
    mmu.grown heap addr size = { mmu with currVaddr := wide addr + size } := if_neg h

theorem Mmu.grown_extended (hextends : mmu.Extends addr size)
    (hgrants : heap.GrantsAll (mmu.extendedSize addr size)) :
    mmuExtend heap mmu (mmu.extendedSize addr size) = (true, mmu.grown heap addr size) := by
  unfold Mmu.grown
  rw [if_pos hextends, mmuExtend_granted hgrants]

/-- With its blocks granted, the call is a change of permissions in the grown memory. -/
theorem mmuAddMemory_grown (hbase : ¬ addr < mmu.base)
    (hgrants : mmu.Extends addr size → heap.GrantsAll (mmu.extendedSize addr size)) :
    mmuAddMemory heap mmu addr size perm =
      mmuSetperm (mmu.grown heap addr size) addr size perm >>= fun mmu' => .ok (true, mmu') := by
  unfold mmuAddMemory
  rw [if_neg hbase]
  by_cases hextends : wide addr + size > wide mmu.base + mmu.size
  · have hextend := Mmu.grown_extended hextends (hgrants hextends)
    unfold Mmu.extendedSize at hextend
    rw [if_pos hextends, hextend]
    rfl
  · rw [if_neg hextends, Mmu.grown_inside hextends]
    rfl

/-- Memory that was added passed the check against the base, and its blocks were
granted. -/
theorem mmuAddMemory_added (h : mmuAddMemory heap mmu addr size perm = .ok (true, mmu')) :
    ¬ addr < mmu.base ∧
      (mmu.Extends addr size → heap.GrantsAll (mmu.extendedSize addr size)) := by
  refine ⟨(Transition.of_ite_error h).1, fun hextends => ?_⟩
  by_contra hrefused
  cases mmuAddMemory_cases h with
  | inside hinside => exact hinside hextends
  | extended _ hgrants => exact hrefused hgrants

/-! ## Sizes -/

theorem segment_end (addr : Vaddr) {size : Size} (hsize : size.toNat < 2 ^ 32) :
    (wide addr + size).toNat = addr.toNat + size.toNat := by
  have haddr := addr.isLt
  rw [BitVec.toNat_add, wide_toNat]
  omega

theorem alignedSize_lt (size : Size) : (alignedSize size).toNat < 2 ^ 32 := by
  rw [alignedSize, BitVec.toNat_and]
  exact Nat.and_lt_two_pow _ (by decide)

/-- The bump pointer in 32 bits, if these hold it. -/
theorem Mmu.start_toNat (hlt : mmu.currVaddr.toNat < 2 ^ 32) :
    (mmu.currVaddr.setWidth 32 : Vaddr).toNat = mmu.currVaddr.toNat := by
  rw [BitVec.toNat_setWidth, Nat.mod_eq_of_lt hlt]

theorem Mmu.start_ne_zero (hpos : 0 < mmu.currVaddr.toNat) (hlt : mmu.currVaddr.toNat < 2 ^ 32) :
    (mmu.currVaddr.setWidth 32 : Vaddr) ≠ 0 := by
  intro hzero
  have hstart := Mmu.start_toNat hlt
  rw [hzero] at hstart
  exact Nat.ne_of_lt hpos hstart

theorem Mmu.start_end (hlt : mmu.currVaddr.toNat < 2 ^ 32) (size : Size) :
    (wide (mmu.currVaddr.setWidth 32) + alignedSize size).toNat =
      mmu.currVaddr.toNat + (alignedSize size).toNat := by
  rw [segment_end _ (alignedSize_lt size), Mmu.start_toNat hlt]

theorem memory_end (hsized : mmu.size.toNat < 2 ^ 63) :
    (wide mmu.base + mmu.size).toNat = mmu.base.toNat + mmu.size.toNat := by
  have hbase := mmu.base.isLt
  rw [BitVec.toNat_add, wide_toNat]
  omega

theorem Mmu.extends_iff (hsized : mmu.size.toNat < 2 ^ 63) (hsize : size.toNat < 2 ^ 32) :
    mmu.Extends addr size ↔ mmu.base.toNat + mmu.size.toNat < addr.toNat + size.toNat := by
  unfold Mmu.Extends
  rw [gt_iff_lt, BitVec.lt_def, segment_end addr hsize, memory_end hsized]

theorem Mmu.extendedSize_toNat (hbase : mmu.base.toNat ≤ addr.toNat)
    (hsize : size.toNat < 2 ^ 32) :
    (mmu.extendedSize addr size).toNat = addr.toNat + size.toNat - mmu.base.toNat := by
  have hend := segment_end addr hsize
  have haddr := addr.isLt
  rw [Mmu.extendedSize, BitVec.toNat_sub, wide_toNat, hend]
  omega

/-- The memory grows to the end of the segment. -/
theorem Mmu.grown_size (hbase : mmu.base.toNat ≤ addr.toNat) (hsized : mmu.size.toNat < 2 ^ 63)
    (hsize : size.toNat < 2 ^ 32)
    (hgrants : mmu.Extends addr size → heap.GrantsAll (mmu.extendedSize addr size)) :
    (mmu.grown heap addr size).size.toNat =
      max mmu.size.toNat (addr.toNat + size.toNat - mmu.base.toNat) := by
  have hextends := @Mmu.extends_iff mmu addr size hsized hsize
  unfold Mmu.grown
  by_cases h : mmu.Extends addr size
  · have hlt := hextends.mp h
    rw [if_pos h, mmuExtend_granted (hgrants h)]
    show (mmu.extendedSize addr size).toNat = _
    rw [Mmu.extendedSize_toNat hbase hsize]
    omega
  · have hle := mt hextends.mpr h
    rw [if_neg h]
    show mmu.size.toNat = _
    omega

theorem Mmu.grown_base (hgrants : mmu.Extends addr size →
      heap.GrantsAll (mmu.extendedSize addr size)) :
    (mmu.grown heap addr size).base = mmu.base := by
  unfold Mmu.grown
  by_cases h : mmu.Extends addr size
  · rw [if_pos h, mmuExtend_granted (hgrants h)]
  · rw [if_neg h]

/-- The segment is inside the grown memory. -/
theorem Mmu.grown_holds (hbase : mmu.base.toNat ≤ addr.toNat) (hsized : mmu.size.toNat < 2 ^ 63)
    (hsize : size.toNat < 2 ^ 32)
    (hgrants : mmu.Extends addr size → heap.GrantsAll (mmu.extendedSize addr size)) :
    (mmu.grown heap addr size).Holds addr size.toNat := by
  unfold Mmu.Holds
  rw [Mmu.grown_base hgrants, Mmu.grown_size hbase hsized hsize hgrants]
  omega

/-! ## Contents -/

theorem reallocated_of_lt {α : Type} {kept i : Nat} {old fresh : Nat → α} (h : i < kept) :
    reallocated kept old fresh i = old i := Span.copy_of_mem (Nat.zero_le i) h

theorem reallocated_of_le {α : Type} {kept i : Nat} {old fresh : Nat → α} (h : kept ≤ i) :
    reallocated kept old fresh i = fresh i := Span.copy_of_not_mem (Or.inr h)

theorem Mmu.grown_perm_kept {x : Nat}
    (hgrants : mmu.Extends addr size → heap.GrantsAll (mmu.extendedSize addr size))
    (hkept : mmu.Extends addr size →
      x < keptPerms mmu.permBlock.toNat (mmu.extendedSize addr size).toNat) :
    (mmu.grown heap addr size).perm x = mmu.perm x := by
  unfold Mmu.grown
  by_cases h : mmu.Extends addr size
  · rw [if_pos h, mmuExtend_granted (hgrants h)]
    exact reallocated_of_lt (hkept h)
  · rw [if_neg h]

/-- Behind the part that survives stands what the host had there. -/
theorem Mmu.grown_perm_dropped {x : Nat} (hextends : mmu.Extends addr size)
    (hgrants : heap.GrantsAll (mmu.extendedSize addr size))
    (hdropped : keptPerms mmu.permBlock.toNat (mmu.extendedSize addr size).toNat ≤ x) :
    (mmu.grown heap addr size).perm x = heap.perm x := by
  unfold Mmu.grown
  rw [if_pos hextends, mmuExtend_granted hgrants]
  exact reallocated_of_le hdropped

theorem Mmu.grown_perm_cases {x : Nat}
    (hgrants : mmu.Extends addr size → heap.GrantsAll (mmu.extendedSize addr size)) :
    (mmu.grown heap addr size).perm x = mmu.perm x ∨
      (mmu.grown heap addr size).perm x = heap.perm x := by
  by_cases hextends : mmu.Extends addr size
  · by_cases hkept : x < keptPerms mmu.permBlock.toNat (mmu.extendedSize addr size).toNat
    · exact Or.inl (Mmu.grown_perm_kept hgrants fun _ => hkept)
    · exact Or.inr (Mmu.grown_perm_dropped hextends (hgrants hextends) (Nat.le_of_not_lt hkept))
  · exact Or.inl (Mmu.grown_perm_kept hgrants fun h => absurd h hextends)

end Grown

end CRiscV
