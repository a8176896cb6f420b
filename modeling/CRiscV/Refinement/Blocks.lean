/-
The blocks behind the three arrays of an MMU, and the indices that its functions
use under their range checks.
-/
import CRiscV.Bus.Run

namespace CRiscV

open Transition (Run)

/-- The blocks hold an entry of each array for every byte of the memory, with one
entry of `dirty` for every page and one more. -/
structure Mmu.Covers (mmu : Mmu) : Prop where
  data : mmu.size.toNat ≤ mmu.dataBlock.toNat
  perm : sizeofPerm.toNat * mmu.size.toNat ≤ mmu.permBlock.toNat
  dirty : mmu.size.toNat / dirtyPageSize.toNat + 1 ≤ mmu.dirtyBlock.toNat

/-- The entries that an access to `n` bytes from `vaddr` on may touch lie in their
blocks. -/
structure Mmu.IndexesInside (mmu : Mmu) (vaddr : Vaddr) (n : Size) : Prop where
  data : ∀ i < n.toNat, (mmu.offset vaddr).toNat + i < mmu.dataBlock.toNat
  perm : ∀ i, (mmu.offset vaddr).toNat ≤ i → i < (mmu.offsetEnd vaddr n).toNat →
    sizeofPerm.toNat * (i + 1) ≤ mmu.permBlock.toNat
  dirty : ∀ i, (mmu.offset vaddr / dirtyPageSize).toNat ≤ i →
    i < (mmu.offsetEnd vaddr n / dirtyPageSize).toNat → i < mmu.dirtyBlock.toNat

/-- The range that a call is about. -/
def MmuEvent.range (mmu : Mmu) : MmuEvent → Vaddr × Size
  | .setperm vaddr size _ | .writeFrom _ vaddr size _ | .readInto _ vaddr size _ _ => (vaddr, size)
  | .addMemory _ addr size _ _ => (addr, size)
  | .allocate size _ _ | .allocateRaw size _ => (mmu.currVaddr.setWidth 32, size)

/-- The range does not wrap at 64 bits, and no segment extends the memory. -/
def MmuEvent.Inside (mmu : Mmu) (event : MmuEvent) : Prop :=
  (event.range mmu).1.toNat + (event.range mmu).2.toNat < 2 ^ 64 ∧
    match event with
    | .addMemory _ addr size _ _ => ¬ mmu.Extends addr size
    | .setperm .. | .allocate .. | .allocateRaw .. | .writeFrom .. | .readInto .. => True

def InsideStep (mmu : Mmu) (event : MmuEvent) (mmu' : Mmu) : Prop :=
  MmuStep mmu event mmu' ∧ event.Inside mmu

section Covers

variable {mmu mmu' : Mmu} {event : MmuEvent}

/-- A block of permissions is one object, which bounds the memory. -/
theorem Mmu.Covers.size_lt (h : mmu.Covers) : mmu.size.toNat < 2 ^ 62 := by
  have hperm := h.perm
  have hblock := mmu.permBlock.isLt
  have hfour : sizeofPerm.toNat = 4 := rfl
  rw [hfour] at hperm
  omega

theorem Mmu.Covers.sized (h : mmu.Covers) : mmu.size.toNat < 2 ^ 63 :=
  Nat.lt_trans h.size_lt (by decide)

theorem Mmu.Covers.layout (h : mmu.Covers) (hlayout : mmu.SameLayout mmu') : mmu'.Covers := by
  obtain ⟨data, perm, dirty, state, rfl⟩ := hlayout
  exact ⟨h.data, h.perm, h.dirty⟩

/-- The end of a range that passed the check and does not wrap. -/
theorem Mmu.end_le {vaddr : Vaddr} {n : Size} (hsized : mmu.size.toNat < 2 ^ 63)
    (hwrap : vaddr.toNat + n.toNat < 2 ^ 64) (h : mmu.outside vaddr n = false) :
    mmu.base.toNat ≤ vaddr.toNat ∧ vaddr.toNat + n.toNat ≤ mmu.base.toNat + mmu.size.toNat := by
  have hbase := mmu.base.isLt
  have hstart : (wide vaddr + n).toNat = vaddr.toNat + n.toNat := by
    rw [BitVec.toNat_add, wide_toNat, Nat.mod_eq_of_lt hwrap]
  have hend : (wide mmu.base + mmu.size).toNat = mmu.base.toNat + mmu.size.toNat := by
    rw [BitVec.toNat_add, wide_toNat]
    omega
  simp only [Mmu.outside, Bool.or_eq_false_iff, decide_eq_false_iff_not, gt_iff_lt, BitVec.lt_def,
    hstart, hend, Nat.not_lt] at h
  exact h

/-- In covered memory, a range that passed the check is inside all three blocks. -/
theorem Mmu.Covers.indexesInside {vaddr : Vaddr} {n : Size} (h : mmu.Covers)
    (hsized : mmu.size.toNat < 2 ^ 63) (hwrap : vaddr.toNat + n.toNat < 2 ^ 64)
    (hcheck : mmu.outside vaddr n = false) : mmu.IndexesInside vaddr n := by
  obtain ⟨hbase, hend⟩ := Mmu.end_le hsized hwrap hcheck
  obtain ⟨hdata, hperm, hdirty⟩ := h
  have hfour : sizeofPerm.toNat = 4 := rfl
  have hpage : dirtyPageSize.toNat = 64 := rfl
  have hlo : (mmu.offset vaddr).toNat = vaddr.toNat - mmu.base.toNat := Mmu.offset_toNat hbase
  have hhi : (mmu.offsetEnd vaddr n).toNat = vaddr.toNat - mmu.base.toNat + n.toNat := by
    rw [Mmu.offsetEnd, BitVec.toNat_add, hlo]
    omega
  rw [hfour] at hperm
  rw [hpage] at hdirty
  refine ⟨?_, ?_, ?_⟩
  · intro i hi
    omega
  · intro i _ hi
    rw [hfour]
    omega
  · intro i _ hi
    rw [BitVec.toNat_udiv, hhi, hpage] at hi
    omega

theorem Mmu.Fresh.covers {base : Vaddr} {size : Size} (h : mmu.Fresh base size)
    (hsize : size.toNat < 2 ^ 62) : mmu.Covers := by
  have hfour : sizeofPerm.toNat = 4 := rfl
  have hpage : dirtyPageSize.toNat = 64 := rfl
  refine ⟨?_, ?_, ?_⟩
  · rw [h.size, h.dataBlock]
  · rw [h.size, h.permBlock, BitVec.toNat_mul, hfour]
    omega
  · have hone : (1 : Size).toNat = 1 := rfl
    rw [h.size, h.dirtyBlock, BitVec.toNat_add, BitVec.toNat_udiv, hpage, hone]
    omega

theorem initialMmu_covers : initialMmu.Covers := (mmuInit_fresh mmuInit_initial).covers (by decide)

/-- An allocation leaves the size and the blocks alone. -/
theorem Mmu.Covers.allocate {addr : Vaddr} {size : Size} {perm : Perm} (h : mmu.Covers)
    (hallocate : mmuAllocate mmu size perm = .ok (addr, mmu')) :
    mmu'.Covers ∧ mmu'.size = mmu.size := by
  rcases mmuAllocate_cases hallocate with ⟨-, rfl⟩ | ⟨-, -, -, -, rfl⟩
  · exact ⟨h, rfl⟩
  · exact ⟨⟨h.data, h.perm, h.dirty⟩, rfl⟩

/-- A call that extends nothing leaves the size and the blocks alone. -/
theorem InsideStep.covers (h : mmu.Covers) (hstep : InsideStep mmu event mmu') :
    mmu'.Covers ∧ mmu'.size = mmu.size := by
  have hsame : ∀ {m : Mmu}, m.Covers → m.size = mmu.size → m.SameLayout mmu' →
      mmu'.Covers ∧ mmu'.size = mmu.size := by
    intro m hm hsize hlayout
    refine ⟨hm.layout hlayout, ?_⟩
    obtain ⟨data, perm, dirty, state, rfl⟩ := hlayout
    exact hsize
  have hmoved : ∀ currVaddr, Mmu.SameLayout { mmu with currVaddr := currVaddr } mmu' →
      mmu'.Covers ∧ mmu'.size = mmu.size := by
    intro currVaddr hlayout
    have hcovers : Mmu.Covers { mmu with currVaddr := currVaddr } := ⟨h.data, h.perm, h.dirty⟩
    exact hsame hcovers rfl hlayout
  obtain ⟨hstep, -, hinside⟩ := hstep
  cases event with
  | setperm vaddr size perm => exact hsame h rfl (mmuSetperm_layout hstep)
  | writeFrom src vaddr size count => exact hsame h rfl (mmuWriteFrom_layout hstep)
  | readInto dst vaddr size count buf => exact hsame h rfl (mmuReadInto_layout hstep)
  | allocate size perm addr => exact h.allocate hstep
  | allocateRaw size addr => exact h.allocate hstep
  | addMemory heap addr size perm added =>
      cases mmuAddMemory_cases hstep with
      | inside hkept hlayout => exact hmoved _ hlayout
      | extended hextends hgrants hlayout => exact absurd hextends hinside
      | refused hextends hgrants dataBlock permBlock hlayout => exact absurd hextends hinside

/-- A granted extension leaves a block of permissions with a fourth of the entries
that the memory needs. -/
theorem extension_uncovers {heap : Heap} {addr : Vaddr} {size : Size} {perm : Perm}
    (hsized : mmu.size.toNat < 2 ^ 63) (hextends : mmu.Extends addr size)
    (hstep : MmuStep mmu (.addMemory heap addr size perm true) mmu') : ¬ mmu'.Covers := by
  cases mmuAddMemory_cases hstep with
  | inside hkept hlayout => exact absurd hextends hkept
  | extended _ hgrants hlayout =>
      obtain ⟨data, perm', dirty, state, rfl⟩ := hlayout
      intro hcovers
      have hperm : sizeofPerm.toNat * (mmu.extendedSize addr size).toNat ≤
          (mmu.extendedSize addr size).toNat := hcovers.perm
      have hfour : sizeofPerm.toNat = 4 := rfl
      rw [hfour] at hperm
      have hbase := mmu.base.isLt
      have hpos : (mmu.extendedSize addr size).toNat ≠ 0 := by
        unfold Mmu.Extends at hextends
        rw [gt_iff_lt, BitVec.lt_def, BitVec.toNat_add (wide mmu.base), wide_toNat,
          Nat.mod_eq_of_lt (by omega)] at hextends
        rw [Mmu.extendedSize, BitVec.toNat_sub, wide_toNat]
        have := (wide addr + size).isLt
        omega
      omega

end Covers

/-- The blocks cover the memory, and the indices that pass the range checks lie inside
them, in every run from an MMU below `2 ^ 62` bytes that does not extend it. -/
theorem blocks_cover {heap : Heap} {base : Vaddr} {size : Size} {mmu₀ mmu : Mmu}
    {events : List MmuEvent} (hinit : mmuInit heap base size = .ok (some mmu₀))
    (hsize : size.toNat < 2 ^ 62) (hrun : Run InsideStep mmu₀ events mmu) :
    mmu.Covers ∧ ∀ (vaddr : Vaddr) (n : Size), vaddr.toNat + n.toNat < 2 ^ 64 →
      mmu.outside vaddr n = false → mmu.IndexesInside vaddr n := by
  have hfresh := mmuInit_fresh hinit
  have hkept : mmu.Covers ∧ mmu.size = size := by
    induction hrun with
    | nil => exact ⟨hfresh.covers hsize, hfresh.size⟩
    | snoc _ hstep ih =>
        obtain ⟨hcovers, hsame⟩ := hstep.covers ih.1
        exact ⟨hcovers, hsame.trans ih.2⟩
  refine ⟨hkept.1, ?_⟩
  intro vaddr n hwrap hcheck
  exact hkept.1.indexesInside (hkept.2 ▸ hfresh.sized) hwrap hcheck

theorem smallMemory_covered : ∃ mmu₀ mmu : Mmu,
    mmuInit generousHeap 0x10000 0x1000 = .ok (some mmu₀) ∧
    Run InsideStep mmu₀ [loadEvent 0x10000 0x100] mmu ∧
    mmu.Covers ∧ mmu.IndexesInside 0x10ff0 0x10 := by
  obtain ⟨mmu₀, mmu, hinit, hload, hcheck⟩ : ∃ mmu₀ mmu : Mmu,
      mmuInit generousHeap 0x10000 0x1000 = .ok (some mmu₀) ∧
      InsideStep mmu₀ (loadEvent 0x10000 0x100) mmu ∧ mmu.outside 0x10ff0 0x10 = false := by
    refine ⟨_, _, rfl, ⟨rfl, ?_, ?_⟩, rfl⟩
    · show (0x10000 : Vaddr).toNat + (0x100 : Size).toNat < 2 ^ 64
      decide
    · show ¬ wide 0x10000 + 0x100 > wide 0x10000 + 0x1000
      decide
  obtain ⟨hcovers, hindexes⟩ := blocks_cover hinit (by decide) (Run.single hload)
  exact ⟨mmu₀, mmu, hinit, Run.single hload, hcovers,
    hindexes 0x10ff0 0x10 (by decide) hcheck⟩

/-- A segment that extends the memory to twice its size, and an access inside the
memory whose permissions are outside their block. -/
theorem extendedMemory_uncovered : ∃ mmu₀ mmu : Mmu,
    mmuInit generousHeap 0x10000 0x1000 = .ok (some mmu₀) ∧
    MmuStep mmu₀ (loadEvent 0x11000 0x1000) mmu ∧
    ¬ mmu.Covers ∧ mmu.outside 0x11000 4 = false ∧ ¬ mmu.IndexesInside 0x11000 4 := by
  obtain ⟨mmu₀, mmu, hinit, hload, hblock, hcheck, hindex⟩ : ∃ mmu₀ mmu : Mmu,
      mmuInit generousHeap 0x10000 0x1000 = .ok (some mmu₀) ∧
      MmuStep mmu₀ (loadEvent 0x11000 0x1000) mmu ∧ mmu.permBlock = 0x2000 ∧
      mmu.outside 0x11000 4 = false ∧ mmu.offset 0x11000 = 0x1000 :=
    ⟨_, _, rfl, rfl, rfl, rfl, rfl⟩
  refine ⟨mmu₀, mmu, hinit, hload, ?_, hcheck, ?_⟩
  · refine extension_uncovers ?_ ?_ hload
    · rw [(mmuInit_fresh hinit).size]
      decide
    · unfold Mmu.Extends
      rw [(mmuInit_fresh hinit).size, (mmuInit_fresh hinit).base]
      decide
  · intro hinside
    have hperm := hinside.perm 0x1000
    rw [Mmu.offsetEnd, hindex, hblock] at hperm
    exact absurd (hperm (by decide) (by decide)) (by decide)

end CRiscV
