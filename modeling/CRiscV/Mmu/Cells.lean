/-
The memory as a partial map from addresses to bytes with their permissions, and what a
write and an allocation do to it.
-/
import CRiscV.Data.Region
import CRiscV.Mmu.Access
import CRiscV.Mmu.Segment

namespace CRiscV

/-- The byte at an address of the memory, with its permission. -/
def Mmu.cells (mmu : Mmu) : Nat → Option (BitVec 8 × Perm) := fun a =>
  if mmu.base.toNat ≤ a ∧ a < mmu.base.toNat + mmu.size.toNat then
    some (mmu.data (a - mmu.base.toNat), mmu.perm (a - mmu.base.toNat))
  else none

/-- The byte waits for its first write. -/
def Raw (c : BitVec 8 × Perm) : Prop := c.2 &&& mpermRaw = mpermRaw

/-- The byte can be read and is `x`. -/
def Reads (x : BitVec 8) (c : BitVec 8 × Perm) : Prop := c.1 = x ∧ c.2.Readable

section Cells

variable {mmu mmu' : Mmu} {v : Vaddr} {a n : Nat} {Q : Nat → BitVec 8 × Perm → Prop}

theorem Mmu.cells_of_mem (hlo : mmu.base.toNat ≤ a) (hhi : a < mmu.base.toNat + mmu.size.toNat) :
    mmu.cells a = some (mmu.data (a - mmu.base.toNat), mmu.perm (a - mmu.base.toNat)) :=
  if_pos ⟨hlo, hhi⟩

theorem Mmu.cells_eq_some {c : BitVec 8 × Perm} (h : mmu.cells a = some c) :
    mmu.base.toNat ≤ a ∧ a < mmu.base.toNat + mmu.size.toNat ∧
      c = (mmu.data (a - mmu.base.toNat), mmu.perm (a - mmu.base.toNat)) := by
  unfold Mmu.cells at h
  by_cases hin : mmu.base.toNat ≤ a ∧ a < mmu.base.toNat + mmu.size.toNat
  · rw [if_pos hin] at h
    exact ⟨hin.1, hin.2, (Option.some.inj h).symm⟩
  · rw [if_neg hin] at h
    cases h

/-- A range of cells is a range of the memory. -/
theorem Mmu.cells_bounds (h : Region.Holds mmu.cells a n Q) (hn : 0 < n) :
    mmu.base.toNat ≤ a ∧ a + n ≤ mmu.base.toNat + mmu.size.toNat := by
  obtain ⟨first, hfirst, -⟩ := h 0 hn
  obtain ⟨last, hlast, -⟩ := h (n - 1) (by omega)
  have hlo := (Mmu.cells_eq_some hfirst).1
  have hhi := (Mmu.cells_eq_some hlast).2.1
  omega

theorem Mmu.holds_cells_iff (hn : 0 < n) :
    Region.Holds mmu.cells v.toNat n Q ↔
      mmu.Holds v n ∧ ∀ i < n, Q i (mmu.byteFrom v i, mmu.permFrom v i) := by
  have hcell : mmu.Holds v n → ∀ i < n,
      mmu.cells (v.toNat + i) = some (mmu.byteFrom v i, mmu.permFrom v i) := by
    rintro ⟨hlo, hhi⟩ i hi
    have hindex : v.toNat + i - mmu.base.toNat = (mmu.offset v).toNat + i := by
      rw [Mmu.offset_toNat hlo]
      omega
    rw [Mmu.cells_of_mem (by omega) (by omega), hindex]
    rfl
  constructor
  · intro h
    have hholds : mmu.Holds v n := Mmu.cells_bounds h hn
    refine ⟨hholds, fun i hi => ?_⟩
    obtain ⟨c, hc, hQ⟩ := h i hi
    rw [hcell hholds i hi] at hc
    rwa [Option.some.inj hc]
  · rintro ⟨hholds, hall⟩ i hi
    exact ⟨_, hcell hholds i hi, hall i hi⟩

/-- Entries outside the range of `v` and the `n` bytes from there on are as they were. -/
theorem Mmu.cells_beside (hbase : mmu'.base = mmu.base) (hsize : mmu'.size = mmu.size)
    (hlo : mmu.base.toNat ≤ v.toNat)
    (hkept : ∀ i, i < (mmu.offset v).toNat ∨ (mmu.offset v).toNat + n ≤ i →
      mmu'.data i = mmu.data i ∧ mmu'.perm i = mmu.perm i) :
    Region.Beside mmu.cells mmu'.cells v.toNat (v.toNat + n) := by
  intro a ha
  rw [Mmu.offset_toNat hlo] at hkept
  unfold Mmu.cells
  rw [hbase, hsize]
  by_cases hin : mmu.base.toNat ≤ a ∧ a < mmu.base.toNat + mmu.size.toNat
  · obtain ⟨hdata, hperm⟩ := hkept (a - mmu.base.toNat) (by omega)
    rw [if_pos hin, if_pos hin, hdata, hperm]
  · rw [if_neg hin, if_neg hin]

end Cells

/-! ## A write -/

section Write

variable {mmu : Mmu} {v : Vaddr} {n : Size} {src : Nat → BitVec 8}

theorem Mmu.accepts_write_of_raw (hsized : mmu.size.toNat < 2 ^ 63) (hpos : 0 < n.toNat)
    (hraw : Region.Holds mmu.cells v.toNat n.toNat fun _ => Raw) :
    mmu.Accepts v n mpermWrite := by
  obtain ⟨hholds, hall⟩ := (Mmu.holds_cells_iff hpos).mp hraw
  have hn : n.toNat < 2 ^ 63 := by
    have hend := hholds.2
    have hlo := hholds.1
    omega
  exact (Mmu.accepts_write_iff hsized hn).mpr ⟨hholds, fun i hi => Or.inr (hall i hi)⟩

theorem Mmu.written_beside (hn : n.toNat < 2 ^ 63) (hlo : mmu.base.toNat ≤ v.toNat) :
    Region.Beside mmu.cells (mmu.written src v n).cells v.toNat (v.toNat + n.toNat) := by
  refine Mmu.cells_beside rfl rfl hlo ?_
  intro i hi
  have hend := mmu.offsetEnd_toNat v hn
  refine ⟨Span.copy_of_not_mem hi, ?_⟩
  show Span.update (mmu.offset v).toNat (mmu.offsetEnd v n).toNat (fun _ p => permWritten p)
    mmu.perm i = _
  exact Span.update_of_not_mem (by omega)

/-- What was raw reads as what was written. -/
theorem Mmu.written_reads (hn : n.toNat < 2 ^ 63) (hpos : 0 < n.toNat)
    (hraw : Region.Holds mmu.cells v.toNat n.toNat fun _ => Raw) :
    Region.Holds (mmu.written src v n).cells v.toNat n.toNat fun i => Reads (src i) := by
  obtain ⟨hholds, hall⟩ := (Mmu.holds_cells_iff hpos).mp hraw
  rw [Mmu.holds_cells_iff hpos]
  refine ⟨hholds, ?_⟩
  intro i hi
  have hend := mmu.offsetEnd_toNat v hn
  constructor
  · show Span.copy _ _ src mmu.data ((mmu.offset v).toNat + i) = src i
    rw [Span.copy_of_mem (by omega) (by omega), Nat.add_sub_cancel_left]
  · show (Span.update _ _ (fun _ p => permWritten p) mmu.perm ((mmu.offset v).toNat + i)).Readable
    rw [Span.update_of_mem (by omega) (by omega)]
    exact permWritten_readable (Or.inr (hall i hi))

end Write

/-! ## An allocation -/

/-- `mmu'` is `mmu` with the block of `n` bytes at `r` taken, in front of the bump pointer. -/
structure Mmu.Takes (mmu : Mmu) (n : Size) (perm : Perm) (r : Vaddr) (mmu' : Mmu) : Prop where
  base : mmu'.base = mmu.base
  size : mmu'.size = mmu.size
  start : r = mmu.currVaddr.setWidth 32
  inside : mmu.Holds r n.toNat
  room : r.toNat + (alignedSize n).toNat < mmu.base.toNat + mmu.size.toNat
  next : mmu'.currVaddr.toNat = r.toNat + (alignedSize n).toNat
  block : Region.Holds mmu'.cells r.toNat n.toNat fun _ c => c.2 = perm
  beside : Region.Beside mmu.cells mmu'.cells r.toNat (r.toNat + n.toNat)

section Allocate

variable {mmu mmu' : Mmu} {n : Size} {perm : Perm} {r : Vaddr}

theorem mmuAllocate_takes (hsized : mmu.size.toNat < 2 ^ 63) (hn : n.toNat < 2 ^ 63)
    (hpos : 0 < n.toNat) (h : mmuAllocate mmu n perm = .ok (r, mmu')) (hr : r ≠ 0) :
    mmu.Takes n perm r mmu' := by
  rcases mmuAllocate_cases h with ⟨hzero, -⟩ | ⟨hstart, -, hroom, hinside, rfl⟩
  · exact absurd hzero hr
  · have hholds := (Mmu.outside_eq_false_iff hsized hn).mp hinside
    have hend := segment_end r (alignedSize_lt n)
    have hspan := mmu.offsetEnd_toNat r hn
    rw [BitVec.lt_def, hend, memory_end hsized] at hroom
    refine ⟨rfl, rfl, hstart, hholds, hroom, hend, ?_, ?_⟩
    · rw [Mmu.holds_cells_iff hpos]
      refine ⟨hholds, fun i hi => ?_⟩
      show Span.fill (mmu.offset r).toNat (mmu.offsetEnd r n).toNat perm mmu.perm
        ((mmu.offset r).toNat + i) = perm
      exact Span.fill_of_mem (by omega) (by omega)
    · refine Mmu.cells_beside rfl rfl hholds.1 ?_
      intro i hi
      refine ⟨rfl, ?_⟩
      show Span.fill (mmu.offset r).toNat (mmu.offsetEnd r n).toNat perm mmu.perm i = _
      exact Span.fill_of_not_mem (by omega)

/-- The outcome is decided by the layout. -/
theorem mmuAllocate_layout {mmu₁ : Mmu} (hlayout : mmu.SameLayout mmu₁)
    (h : mmuAllocate mmu n perm = .ok (r, mmu')) :
    ∃ mmu₁', mmuAllocate mmu₁ n perm = .ok (r, mmu₁') ∧ mmu'.SameLayout mmu₁' := by
  obtain ⟨data, p, dirty, state, rfl⟩ := hlayout
  unfold mmuAllocate at h ⊢
  simp only at h ⊢
  by_cases hfull : wide (mmu.currVaddr.setWidth 32) + alignedSize n ≥ wide mmu.base + mmu.size
  · rw [if_pos hfull] at h ⊢
    cases h
    exact ⟨_, rfl, ⟨data, p, dirty, state, rfl⟩⟩
  · rw [if_neg hfull] at h ⊢
    obtain ⟨hover, h⟩ := Transition.of_ite_error h
    obtain ⟨placed, hperm, h⟩ := Transition.exists_of_bind_ok h
    obtain ⟨hinside, rfl⟩ := mmuSetperm_ok hperm
    cases h
    have hinside' : Mmu.outside
        { mmu with
          currVaddr := wide (mmu.currVaddr.setWidth 32) + alignedSize n
          data := data, perm := p, dirty := dirty, state := state }
        (mmu.currVaddr.setWidth 32) n = false := hinside
    rw [if_neg hover, mmuSetperm_inside hinside']
    exact ⟨_, rfl, ⟨data, _, dirty, state, rfl⟩⟩

end Allocate

end CRiscV
