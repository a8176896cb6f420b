/-
The two transfers of the MMU as their callers see them: by address, with one
condition under which a transfer is made as a whole and otherwise not at all.
-/
import CRiscV.Bus.Run
import CRiscV.Refinement.Blocks

namespace CRiscV

/-- The byte that the memory holds for an address. -/
def Mmu.dataAt (mmu : Mmu) (a : Nat) : BitVec 8 := mmu.data (a - mmu.base.toNat)

def Mmu.permAt (mmu : Mmu) (a : Nat) : Perm := mmu.perm (a - mmu.base.toNat)

/-- Every address of `[vaddr, vaddr + n)` is in the memory and has a permission
with `P`. -/
def Mmu.Allows (mmu : Mmu) (P : Perm → Prop) (vaddr : Vaddr) (n : Nat) : Prop :=
  mmu.Holds vaddr n ∧ ∀ i < n, P (mmu.permAt (vaddr.toNat + i))

/-- `mmu'` is `mmu` after a write of `src` to `[vaddr, vaddr + n)`: a byte there that
waited for its first write can be read and written from now on and keeps its EXEC
bit, and no other permission and no other byte changes. -/
structure Mmu.Holding (mmu mmu' : Mmu) (src : Nat → BitVec 8) (vaddr : Vaddr) (n : Nat) : Prop where
  base : mmu'.base = mmu.base
  data : ∀ i < n, mmu'.dataAt (vaddr.toNat + i) = src i
  raw : ∀ i < n, mmu.permAt (vaddr.toNat + i) &&& mpermRaw = mpermRaw →
    mmu'.permAt (vaddr.toNat + i) =
      mpermRead ||| mpermWrite ||| (mmu.permAt (vaddr.toNat + i) &&& mpermExec)
  kept : ∀ i < n, mmu.permAt (vaddr.toNat + i) &&& mpermRaw ≠ mpermRaw →
    mmu'.permAt (vaddr.toNat + i) = mmu.permAt (vaddr.toNat + i)
  others : ∀ a, mmu.base.toNat ≤ a → a < vaddr.toNat ∨ vaddr.toNat + n ≤ a →
    mmu'.dataAt a = mmu.dataAt a ∧ mmu'.permAt a = mmu.permAt a

/-- The outcome of a read: the size, the destination and the MMU. -/
def Mmu.Delivers (mmu : Mmu) (vaddr : Vaddr) (size : Size)
    (x : Size × (Nat → BitVec 8) × Mmu) : Prop :=
  x.2.2.state = .ok ∧ x.1 = size ∧
    ∀ i < size.toNat, x.2.1 i = mmu.dataAt (vaddr.toNat + i)

structure Mmu.ReadContract (mmu : Mmu) (dst : Nat → BitVec 8) (vaddr : Vaddr) (size : Size) :
    Prop where
  delivers : mmu.Delivers vaddr size (mmuReadInto mmu dst vaddr size) ↔
    mmu.Allows Perm.Readable vaddr size.toNat
  refused : ¬ mmu.Allows Perm.Readable vaddr size.toNat →
    (mmuReadInto mmu dst vaddr size).2.2.state ≠ .ok ∧ (mmuReadInto mmu dst vaddr size).2.1 = dst

/-- A write returns, whether it is accepted or refused. -/
structure Mmu.WriteContract (mmu : Mmu) (src : Nat → BitVec 8) (vaddr : Vaddr) (size : Size) :
    Prop where
  returns : ∃ n mmu', mmuWriteFrom mmu src vaddr size = .ok (n, mmu') ∧
    (mmu'.state = .ok ∧ n = size ∧ mmu.Holding mmu' src vaddr size.toNat ↔
      mmu.Allows Perm.Writable vaddr size.toNat) ∧
    (¬ mmu.Allows Perm.Writable vaddr size.toNat →
      mmu'.state ≠ .ok ∧ mmu'.data = mmu.data ∧ mmu'.perm = mmu.perm ∧ mmu'.dirty = mmu.dirty)

section Transfer

variable {mmu : Mmu} {src dst : Nat → BitVec 8} {vaddr : Vaddr} {size : Size}

theorem Mmu.Holds.index {n i : Nat} (h : mmu.Holds vaddr n) :
    vaddr.toNat + i - mmu.base.toNat = (mmu.offset vaddr).toNat + i := by
  have hbase := h.1
  rw [Mmu.offset_toNat hbase]
  omega

theorem Mmu.Holds.dataAt_eq {n : Nat} (h : mmu.Holds vaddr n) (i : Nat) :
    mmu.dataAt (vaddr.toNat + i) = mmu.byteFrom vaddr i := by
  rw [Mmu.dataAt, h.index, Mmu.byteFrom]

theorem Mmu.Holds.permAt_eq {n : Nat} (h : mmu.Holds vaddr n) (i : Nat) :
    mmu.permAt (vaddr.toNat + i) = mmu.permFrom vaddr i := by
  rw [Mmu.permAt, h.index, Mmu.permFrom]

theorem Mmu.allows_iff {P : Perm → Prop} {n : Nat} :
    mmu.Allows P vaddr n ↔ mmu.Holds vaddr n ∧ ∀ i < n, P (mmu.permFrom vaddr i) := by
  constructor
  · rintro ⟨hholds, hall⟩
    refine ⟨hholds, ?_⟩
    intro i hi
    rw [← hholds.permAt_eq i]
    exact hall i hi
  · rintro ⟨hholds, hall⟩
    refine ⟨hholds, ?_⟩
    intro i hi
    rw [hholds.permAt_eq i]
    exact hall i hi

theorem Mmu.allows_read_iff (hsize : mmu.size.toNat < 2 ^ 63) (hn : size.toNat < 2 ^ 63) :
    mmu.Allows Perm.Readable vaddr size.toNat ↔ mmu.Accepts vaddr size mpermRead := by
  rw [Mmu.allows_iff, Mmu.accepts_read_iff hsize hn]

theorem Mmu.allows_write_iff (hsize : mmu.size.toNat < 2 ^ 63) (hn : size.toNat < 2 ^ 63) :
    mmu.Allows Perm.Writable vaddr size.toNat ↔ mmu.Accepts vaddr size mpermWrite := by
  rw [Mmu.allows_iff, Mmu.accepts_write_iff hsize hn]

theorem Mmu.written_permAt (hn : size.toNat < 2 ^ 63) (hholds : mmu.Holds vaddr size.toNat)
    {i : Nat} (hi : i < size.toNat) :
    (mmu.written src vaddr size).permAt (vaddr.toNat + i) =
      permWritten (mmu.permAt (vaddr.toNat + i)) := by
  have hend := mmu.offsetEnd_toNat vaddr hn
  show Span.update _ _ (fun _ p => permWritten p) mmu.perm (vaddr.toNat + i - mmu.base.toNat) = _
  rw [hholds.index, Span.update_of_mem (by omega) (by omega), hholds.permAt_eq]
  rfl

/-- What an accepted write does to the memory, address by address. -/
theorem Mmu.written_holding (src : Nat → BitVec 8) (hn : size.toNat < 2 ^ 63)
    (hholds : mmu.Holds vaddr size.toNat) :
    mmu.Holding (mmu.written src vaddr size) src vaddr size.toNat := by
  have hend := mmu.offsetEnd_toNat vaddr hn
  have hlo := Mmu.offset_toNat hholds.1
  refine ⟨rfl, ?_, ?_, ?_, ?_⟩
  · intro i hi
    show Span.copy _ _ src mmu.data (vaddr.toNat + i - mmu.base.toNat) = src i
    rw [hholds.index, Span.copy_of_mem (by omega) (by omega), Nat.add_sub_cancel_left]
  · intro i hi hraw
    rw [Mmu.written_permAt hn hholds hi, permWritten, if_pos hraw]
  · intro i hi hraw
    rw [Mmu.written_permAt hn hholds hi, permWritten, if_neg hraw]
  · intro a ha hout
    have hbase := hholds.1
    have hout' : a - mmu.base.toNat < (mmu.offset vaddr).toNat ∨
        (mmu.offset vaddr).toNat + size.toNat ≤ a - mmu.base.toNat := by
      omega
    constructor
    · exact Span.copy_of_not_mem hout'
    · rw [← hend] at hout'
      show Span.update _ _ (fun _ p => permWritten p) mmu.perm (a - mmu.base.toNat) = _
      exact Span.update_of_not_mem hout'

theorem mmuReadInto_contract (hsize : mmu.size.toNat < 2 ^ 63) (hn : size.toNat < 2 ^ 63) :
    mmu.ReadContract dst vaddr size := by
  by_cases haccepts : mmu.Accepts vaddr size mpermRead
  · have hallows := (Mmu.allows_read_iff hsize hn).mpr haccepts
    refine ⟨⟨fun _ => hallows, fun _ => ?_⟩, fun hnot => absurd hallows hnot⟩
    rw [mmuReadInto_accepted haccepts]
    refine ⟨rfl, rfl, ?_⟩
    intro i hi
    rw [hallows.1.dataAt_eq]
    exact Span.copy_of_mem (Nat.zero_le i) hi
  · have hallows := mt (Mmu.allows_read_iff hsize hn).mp haccepts
    obtain ⟨state, hstate, hread⟩ := @mmuReadInto_refused _ dst _ _ haccepts
    refine ⟨⟨?_, fun hall => absurd hall hallows⟩, ?_⟩
    · rw [hread]
      intro hdelivers
      exact absurd hdelivers.1 hstate
    · intro _
      rw [hread]
      exact ⟨hstate, rfl⟩

theorem mmuWriteFrom_contract (hsize : mmu.size.toNat < 2 ^ 63) (hn : size.toNat < 2 ^ 63) :
    mmu.WriteContract src vaddr size := by
  by_cases haccepts : mmu.Accepts vaddr size mpermWrite
  · have hallows := (Mmu.allows_write_iff hsize hn).mpr haccepts
    have hholding := Mmu.written_holding src hn hallows.1
    exact ⟨_, _, mmuWriteFrom_accepted hn haccepts,
      ⟨fun _ => hallows, fun _ => ⟨rfl, rfl, hholding⟩⟩, fun hnot => absurd hallows hnot⟩
  · have hallows := mt (Mmu.allows_write_iff hsize hn).mp haccepts
    obtain ⟨state, hstate, hwrite⟩ := @mmuWriteFrom_refused _ src _ _ hn haccepts
    exact ⟨_, _, hwrite, ⟨fun hdone => absurd hdone.1 hstate, fun hall => absurd hall hallows⟩,
      fun _ => ⟨hstate, rfl, rfl, rfl⟩⟩

end Transfer

/-- In covered memory both transfers are made as a whole under their condition, and
otherwise not at all. -/
theorem transfer_contracts {mmu : Mmu} (hcovers : mmu.Covers) (src dst : Nat → BitVec 8)
    (vaddr : Vaddr) {size : Size} (hsize : size.toNat < 2 ^ 34) :
    mmu.ReadContract dst vaddr size ∧ mmu.WriteContract src vaddr size := by
  have hlt := hcovers.size_lt
  exact ⟨mmuReadInto_contract (by omega) (by omega), mmuWriteFrom_contract (by omega) (by omega)⟩

/-- Four bytes at the start of a memory that may be written and not yet read. -/
theorem rawMmu_contracts :
    rawMmu.ReadContract (fun _ => 0) ramStart 4 ∧ rawMmu.WriteContract (fun _ => 7) ramStart 4 :=
  transfer_contracts ⟨by decide, by decide, by decide⟩ _ _ _ (by decide)

end CRiscV
