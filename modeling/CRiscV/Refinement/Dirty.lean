/-
The dirty pages of the MMU against the writes that were made.

A write marks the pages from that of its first byte up to, and not including, the one
that its end lies in.  That leaves out the page of the last byte unless the write ends
on a page boundary.
-/
import CRiscV.Refinement.Transfer

namespace CRiscV

open Transition (Run Throughout Meeting)

/-- A call of `mmu_write_from` with the count that it returned.  What it copies from is
an object of the host. -/
structure HostWrite where
  src : Nat → BitVec 8
  vaddr : Vaddr
  size : Size
  count : Size
  sized : size.toNat < 2 ^ 63

def WriteStep (mmu : Mmu) (w : HostWrite) (mmu' : Mmu) : Prop :=
  mmuWriteFrom mmu w.src w.vaddr w.size = .ok (w.count, mmu')

/-- The write was successful, and one of its bytes is on page `k` from `base`. -/
def HostWrite.Touches (base : Vaddr) (k : Nat) (w : HostWrite) : Prop :=
  w.count = w.size ∧ ∃ i < w.size.toNat,
    64 * k ≤ w.vaddr.toNat - base.toNat + i ∧ w.vaddr.toNat - base.toNat + i < 64 * k + 64

/-- The marks are those of the writes. -/
def Mmu.DirtyExact (writes : List HostWrite) (mmu : Mmu) : Prop :=
  ∀ k < mmu.dirtyBlock.toNat,
    (mmu.dirty k = true ↔ ∃ w ∈ writes, w.Touches mmu.base k)

/-- The offset behind the last byte. -/
def HostWrite.stop (mmu : Mmu) (w : HostWrite) : Nat :=
  w.vaddr.toNat - mmu.base.toNat + w.size.toNat

/-- The write is empty or refused, ends on a page boundary, or has its last byte on a
page that is marked. -/
def HostWrite.Marked (mmu : Mmu) (w : HostWrite) : Prop :=
  w.size = 0 ∨ ¬ mmu.Allows Perm.Writable w.vaddr w.size.toNat ∨ w.stop mmu % 64 = 0 ∨
    mmu.dirty ((w.stop mmu - 1) / 64) = true

/-- There is an entry for every page of the memory and one more. -/
structure Mmu.Paged (mmu : Mmu) : Prop where
  sized : mmu.size.toNat < 2 ^ 63
  pages : mmu.dirtyBlock.toNat = mmu.size.toNat / 64 + 1

theorem Mmu.Paged.layout {mmu mmu' : Mmu} (h : mmu.Paged) (hlayout : mmu.SameLayout mmu') :
    mmu'.Paged := by
  obtain ⟨data, perm, dirty, state, rfl⟩ := hlayout
  exact ⟨h.sized, h.pages⟩

theorem mmuInit_paged {heap : Heap} {base : Vaddr} {size : Size} {mmu : Mmu}
    (h : mmuInit heap base size = .ok (some mmu)) : mmu.Paged := by
  have hfresh := mmuInit_fresh h
  have hsized := hfresh.sized
  have hpage : dirtyPageSize.toNat = 64 := rfl
  have hone : (1 : Size).toNat = 1 := rfl
  refine ⟨hfresh.size ▸ hsized, ?_⟩
  rw [hfresh.dirtyBlock, hfresh.size, BitVec.toNat_add, BitVec.toNat_udiv, hpage, hone]
  omega

theorem mmuInit_clean {heap : Heap} {base : Vaddr} {size : Size} {mmu : Mmu}
    (h : mmuInit heap base size = .ok (some mmu)) : mmu.DirtyExact [] := by
  have hblock := (mmuInit_fresh h).dirtyBlock
  unfold mmuInit at h
  simp only at h
  split_ifs at h
  · cases h
  · cases h
  · cases h
  · cases h
  · obtain ⟨m, hsetperm, h⟩ := Transition.exists_of_bind_ok h
    cases h
    intro k hk
    rw [hblock] at hk
    rw [(mmuSetperm_ok hsetperm).2]
    show Span.fill 0 (size / dirtyPageSize + 1).toNat false heap.dirty k = true ↔ _
    rw [Span.fill_of_mem (Nat.zero_le k) hk]
    simp

section Step

variable {mmu mmu' : Mmu} {w : HostWrite} {writes : List HostWrite}

/-- An accepted write marks the pages before the one of its end. -/
theorem Mmu.written_dirty {src : Nat → BitVec 8} {vaddr : Vaddr} {size : Size}
    (hn : size.toNat < 2 ^ 63) (hbase : mmu.base.toNat ≤ vaddr.toNat) (k : Nat) :
    (mmu.written src vaddr size).dirty k = true ↔
      (vaddr.toNat - mmu.base.toNat) / 64 ≤ k ∧
        k < (vaddr.toNat - mmu.base.toNat + size.toNat) / 64 ∨ mmu.dirty k = true := by
  have hpage : dirtyPageSize.toNat = 64 := rfl
  have hlo : (mmu.offset vaddr / dirtyPageSize).toNat = (vaddr.toNat - mmu.base.toNat) / 64 := by
    rw [BitVec.toNat_udiv, hpage, Mmu.offset_toNat hbase]
  have hhi : (mmu.offsetEnd vaddr size / dirtyPageSize).toNat =
      (vaddr.toNat - mmu.base.toNat + size.toNat) / 64 := by
    rw [BitVec.toNat_udiv, hpage, Mmu.offsetEnd_toNat mmu vaddr hn, Mmu.offset_toNat hbase]
  show Span.fill _ _ true mmu.dirty k = true ↔ _
  rw [hlo, hhi]
  by_cases hmem : (vaddr.toNat - mmu.base.toNat) / 64 ≤ k ∧
      k < (vaddr.toNat - mmu.base.toNat + size.toNat) / 64
  · rw [Span.fill_of_mem hmem.1 hmem.2]
    exact ⟨fun _ => Or.inl hmem, fun _ => rfl⟩
  · rw [Span.fill_of_not_mem (by omega)]
    exact ⟨Or.inr, fun h => h.resolve_left hmem⟩

/-- The pages that it touches. -/
theorem HostWrite.touches_iff {base : Vaddr} {k : Nat} (hcount : w.count = w.size) :
    w.Touches base k ↔ w.size.toNat ≠ 0 ∧ (w.vaddr.toNat - base.toNat) / 64 ≤ k ∧
      64 * k < w.vaddr.toNat - base.toNat + w.size.toNat := by
  constructor
  · rintro ⟨-, i, hi, hlo, hhi⟩
    omega
  · rintro ⟨hne, hlo, hhi⟩
    refine ⟨hcount, ?_⟩
    by_cases hstart : 64 * k ≤ w.vaddr.toNat - base.toNat
    · exact ⟨0, by omega, by omega, by omega⟩
    · exact ⟨64 * k - (w.vaddr.toNat - base.toNat), by omega, by omega, by omega⟩

theorem HostWrite.not_touches {base : Vaddr} {k : Nat} (hcount : w.count = 0) :
    ¬ w.Touches base k := by
  rintro ⟨hsize, i, hi, -⟩
  rw [← hsize, hcount] at hi
  exact absurd hi (Nat.not_lt_zero i)

theorem exists_mem_snoc {P : HostWrite → Prop} :
    (∃ v ∈ writes ++ [w], P v) ↔ (∃ v ∈ writes, P v) ∨ P w := by
  simp only [List.mem_append, List.mem_singleton, or_and_right, exists_or, exists_eq_left]

/-- An accepted write meets the condition, or leaves out the page of its last byte. -/
theorem dirtyExact_accepted_iff (hpaged : mmu.Paged) (hexact : mmu.DirtyExact writes)
    (haccepts : mmu.Accepts w.vaddr w.size mpermWrite) (hcount : w.count = w.size) :
    (mmu.written w.src w.vaddr w.size).DirtyExact (writes ++ [w]) ↔ w.Marked mmu := by
  have hn := w.sized
  have hallows := @Mmu.allows_write_iff mmu w.vaddr _ hpaged.sized hn
  obtain ⟨hbase, hend⟩ := haccepts.holds hn
  have hpages := hpaged.pages
  have hstop : w.stop mmu = w.vaddr.toNat - mmu.base.toNat + w.size.toNat := rfl
  have hsplit : ∀ k, (mmu.written w.src w.vaddr w.size).dirty k = true ↔
      (w.vaddr.toNat - mmu.base.toNat) / 64 ≤ k ∧ k < w.stop mmu / 64 ∨ mmu.dirty k = true :=
    Mmu.written_dirty hn hbase
  have htouched : ∀ k < mmu.dirtyBlock.toNat, ((∃ v ∈ writes ++ [w], v.Touches mmu.base k) ↔
      mmu.dirty k = true ∨ w.size.toNat ≠ 0 ∧ (w.vaddr.toNat - mmu.base.toNat) / 64 ≤ k ∧
        64 * k < w.stop mmu) := by
    intro k hk
    rw [exists_mem_snoc, ← hexact k hk, HostWrite.touches_iff hcount]
    rfl
  constructor
  · intro hafter
    -- the page of the last byte is the one that may be missing
    by_contra hmarked
    simp only [HostWrite.Marked, not_or, not_not] at hmarked
    obtain ⟨hne, -, hboundary, hclean⟩ := hmarked
    have hpos : w.size.toNat ≠ 0 := fun hzero => hne (BitVec.eq_of_toNat_eq hzero)
    have hlast : (w.stop mmu - 1) / 64 < mmu.dirtyBlock.toNat := by omega
    have hmissed := hafter _ hlast
    rw [hsplit] at hmissed
    rcases hmissed.mpr ((htouched _ hlast).mpr (Or.inr (by omega))) with hmark | hmark
    · omega
    · exact hclean hmark
  · intro hmarked k hk
    show (mmu.written w.src w.vaddr w.size).dirty k = true ↔ _
    rw [hsplit, or_comm]
    refine Iff.trans ?_ (htouched k hk).symm
    by_cases hdirty : mmu.dirty k = true
    · exact ⟨fun _ => Or.inl hdirty, fun _ => Or.inl hdirty⟩
    · rw [or_iff_right hdirty, or_iff_right hdirty]
      rcases hmarked with hzero | hrefused | hboundary | hlast
      · have hnil : w.size.toNat = 0 := congrArg BitVec.toNat hzero
        omega
      · exact absurd (hallows.mpr haccepts) hrefused
      · omega
      · have hk' : (w.stop mmu - 1) / 64 ≠ k := fun heq => hdirty (heq ▸ hlast)
        omega

/-- A write that returns 0 touches nothing. -/
theorem dirtyExact_refused {state : MmuState} (hexact : mmu.DirtyExact writes)
    (hcount : w.count = 0) : Mmu.DirtyExact (writes ++ [w]) { mmu with state := state } := by
  intro k hk
  rw [exists_mem_snoc, or_iff_left (HostWrite.not_touches hcount)]
  exact hexact k hk

/-- Behind a write the marks are still exact if and only if the write meets the
condition. -/
theorem dirtyExact_step_iff (hpaged : mmu.Paged) (hexact : mmu.DirtyExact writes)
    (hstep : WriteStep mmu w mmu') : mmu'.DirtyExact (writes ++ [w]) ↔ w.Marked mmu := by
  have hn := w.sized
  have hallows := @Mmu.allows_write_iff mmu w.vaddr _ hpaged.sized hn
  unfold WriteStep at hstep
  by_cases haccepts : mmu.Accepts w.vaddr w.size mpermWrite
  · rw [mmuWriteFrom_accepted hn haccepts] at hstep
    injection hstep with hstep
    injection hstep with hcount hmmu
    subst hmmu
    exact dirtyExact_accepted_iff hpaged hexact haccepts hcount.symm
  · obtain ⟨state, -, hrefused⟩ := @mmuWriteFrom_refused _ w.src _ _ hn haccepts
    rw [hrefused] at hstep
    injection hstep with hstep
    injection hstep with hcount hmmu
    subst hmmu
    exact iff_of_true (dirtyExact_refused hexact hcount.symm)
      (Or.inr (Or.inl (mt hallows.mp haccepts)))

theorem writeStep_deterministic (mmu : Mmu) (w : HostWrite) (m m' : Mmu) (h : WriteStep mmu w m)
    (h' : WriteStep mmu w m') : m = m' := by
  unfold WriteStep at h h'
  rw [h] at h'
  cases h'
  rfl

end Step

/-! ## Runs -/

/-- The marks are exact throughout a run if and only if each of its writes meets the
condition. -/
theorem dirty_exact_iff {heap : Heap} {base : Vaddr} {size : Size} {mmu₀ mmu : Mmu}
    {writes : List HostWrite} (hinit : mmuInit heap base size = .ok (some mmu₀))
    (hrun : Run WriteStep mmu₀ writes mmu) :
    Throughout WriteStep mmu₀ Mmu.DirtyExact writes ↔
      Run (Meeting WriteStep fun m w => w.Marked m) mmu₀ writes mmu := by
  have hpaged : ∀ {ws : List HostWrite} {m : Mmu}, Run WriteStep mmu₀ ws m → m.Paged :=
    fun h => h.invariant (mmuInit_paged hinit)
      fun hm hstep => hm.layout (mmuWriteFrom_layout hstep)
  refine hrun.throughout_iff writeStep_deterministic (mmuInit_clean hinit) ?_
  intro ws m w m' hbefore hexact hstep
  exact dirtyExact_step_iff (hpaged hbefore) hexact hstep

/-- An accepted write of one byte. -/
def byteWrite (a : Vaddr) : HostWrite :=
  { src := fun _ => 7, vaddr := a, size := 1, count := 1, sized := by decide }

/-- The last byte of a page, and the first byte of the page that it marked. -/
theorem boundaryByte_exact : ∃ mmu₀ mmu : Mmu,
    mmuInit generousHeap 0x10000 0x1000 = .ok (some mmu₀) ∧
    Run WriteStep mmu₀ [byteWrite 0x1003f, byteWrite 0x10000] mmu ∧
    Throughout WriteStep mmu₀ Mmu.DirtyExact [byteWrite 0x1003f, byteWrite 0x10000] := by
  obtain ⟨mmu₀, mmu₁, mmu, hinit, hlast, hfirst, hboundary, hmark⟩ : ∃ mmu₀ mmu₁ mmu : Mmu,
      mmuInit generousHeap 0x10000 0x1000 = .ok (some mmu₀) ∧
      WriteStep mmu₀ (byteWrite 0x1003f) mmu₁ ∧ WriteStep mmu₁ (byteWrite 0x10000) mmu ∧
      (byteWrite 0x1003f).stop mmu₀ % 64 = 0 ∧
      mmu₁.dirty (((byteWrite 0x10000).stop mmu₁ - 1) / 64) = true :=
    ⟨_, _, _, rfl, rfl, rfl, rfl, rfl⟩
  have hrun : Run WriteStep mmu₀ [byteWrite 0x1003f, byteWrite 0x10000] mmu :=
    (Run.single hlast).snoc hfirst
  have hmet : Run (Meeting WriteStep fun m w => w.Marked m) mmu₀ [byteWrite 0x1003f] mmu₁ :=
    Run.single ⟨hlast, Or.inr (Or.inr (Or.inl hboundary))⟩
  exact ⟨mmu₀, mmu, hinit, hrun, (dirty_exact_iff hinit hrun).mpr
    (hmet.snoc ⟨hfirst, Or.inr (Or.inr (Or.inr hmark))⟩)⟩

/-- The first byte of a page: the write marks nothing. -/
theorem firstByte_unmarked : ∃ mmu₀ mmu : Mmu,
    mmuInit generousHeap 0x10000 0x1000 = .ok (some mmu₀) ∧
    Run WriteStep mmu₀ [byteWrite 0x10000] mmu ∧
    ¬ mmu.DirtyExact [byteWrite 0x10000] := by
  obtain ⟨mmu₀, mmu, hinit, hwrite, hbase, hblock, hclean⟩ : ∃ mmu₀ mmu : Mmu,
      mmuInit generousHeap 0x10000 0x1000 = .ok (some mmu₀) ∧
      WriteStep mmu₀ (byteWrite 0x10000) mmu ∧ mmu.base = 0x10000 ∧
      mmu.dirtyBlock.toNat = 65 ∧ mmu.dirty 0 = false := ⟨_, _, rfl, rfl, rfl, rfl, rfl⟩
  refine ⟨mmu₀, mmu, hinit, Run.single hwrite, ?_⟩
  intro hexact
  have htouched : (byteWrite 0x10000).Touches mmu.base 0 := by
    rw [hbase]
    exact ⟨rfl, 0, by decide, by decide, by decide⟩
  have hmark := (hexact 0 (by omega)).mpr ⟨_, List.mem_singleton_self _, htouched⟩
  rw [hclean] at hmark
  cases hmark

end CRiscV
