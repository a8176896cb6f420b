/-
Whether a segment without the flag `PF_W` stays as it was loaded: its permissions and the
blocks of the memory behind the loop of `elf_load`, and what the memory does with them
afterwards.
-/
import CRiscV.Emulator.Transfers
import CRiscV.Refinement.Allocation
import CRiscV.Refinement.Blocks
import CRiscV.Refinement.Load
import CRiscV.Refinement.Trap

namespace CRiscV

open Transition (Run Returns)

/-! ## A byte that no write changes -/

/-- The byte at an address and its permission. -/
def Mmu.byteOf (mmu : Mmu) (v : Vaddr) : BitVec 8 := mmu.data (v.toNat - mmu.base.toNat)

def Mmu.permOf (mmu : Mmu) (v : Vaddr) : Perm := mmu.perm (v.toNat - mmu.base.toNat)

theorem Mmu.Holds.byteOf_eq {mmu : Mmu} {v : Vaddr} (h : mmu.Holds v 1) :
    mmu.byteOf v = mmu.byteFrom v 0 := by
  unfold Mmu.byteOf Mmu.byteFrom
  rw [Mmu.offset_toNat h.1, Nat.add_zero]

theorem Mmu.Holds.permOf_eq {mmu : Mmu} {v : Vaddr} (h : mmu.Holds v 1) :
    mmu.permOf v = mmu.permFrom v 0 := by
  unfold Mmu.permOf Mmu.permFrom
  rw [Mmu.offset_toNat h.1, Nat.add_zero]

/-- The byte at `v` is `byte`, with a permission that no write passes. -/
structure Mmu.Guards (mmu : Mmu) (b v : Vaddr) (byte : BitVec 8) (p : Perm) : Prop where
  base : mmu.base = b
  low : b.toNat ≤ v.toNat
  byte : mmu.byteOf v = byte
  perm : mmu.permOf v = p
  refuses : ¬ p.Writable

section Guards

variable {mmu mmu' : Mmu} {b v : Vaddr} {byte : BitVec 8} {p : Perm}

/-- An accepted write does not reach the byte. -/
theorem Mmu.Guards.not_written (h : mmu.Guards b v byte p) {a : Vaddr} {n : Size}
    (hn : n.toNat < 2 ^ 63) (haccepts : mmu.Accepts a n mpermWrite) :
    v.toNat - mmu.base.toNat < (mmu.offset a).toNat ∨
      (mmu.offset a).toNat + n.toNat ≤ v.toNat - mmu.base.toNat := by
  by_contra hin
  have hcheck := (mmuCheckAccess_iff mmu a mpermWrite hn).mp haccepts.2
    (v.toNat - mmu.base.toNat - (mmu.offset a).toNat) (by omega)
  rw [permAllows_write, Mmu.permFrom, Nat.add_sub_cancel' (by omega)] at hcheck
  have hperm := h.perm
  unfold Mmu.permOf at hperm
  rw [hperm] at hcheck
  exact h.refuses hcheck

theorem Mmu.Guards.written (h : mmu.Guards b v byte p) (src : Nat → BitVec 8) {a : Vaddr}
    {n : Size} (hn : n.toNat < 2 ^ 63) (haccepts : mmu.Accepts a n mpermWrite) :
    (mmu.written src a n).Guards b v byte p := by
  have hout := h.not_written hn haccepts
  refine ⟨h.base, h.low, ?_, ?_, h.refuses⟩
  · exact Eq.trans (Span.copy_of_not_mem hout) h.byte
  · rw [← mmu.offsetEnd_toNat a hn] at hout
    have hupdate : (mmu.written src a n).permOf v =
        Span.update (mmu.offset a).toNat (mmu.offsetEnd a n).toNat (fun _ p => permWritten p)
          mmu.perm (v.toNat - mmu.base.toNat) := rfl
    rw [hupdate, Span.update_of_not_mem hout]
    exact h.perm

theorem guards_stable (b v : Vaddr) (byte : BitVec 8) (p : Perm) :
    Mmu.Stable fun mmu => mmu.Guards b v byte p where
  flag := fun _ h => ⟨h.base, h.low, h.byte, h.perm, h.refuses⟩
  written := fun src _ _ hn haccepts h => h.written src hn haccepts

/-- A change of permissions elsewhere. -/
theorem Mmu.Guards.setperm (h : mmu.Guards b v byte p) {a : Vaddr} {size : Size} {perm : Perm}
    (hout : v.toNat ∉ addresses (a, size)) (hset : mmuSetperm mmu a size perm = .ok mmu') :
    mmu'.Guards b v byte p := by
  have hinside := (mmuSetperm_ok hset).1
  have hlow : mmu.base.toNat ≤ a.toNat := by
    simp only [Mmu.outside, Bool.or_eq_false_iff, decide_eq_false_iff_not, BitVec.lt_def,
      Nat.not_lt] at hinside
    exact hinside.1
  simp only [addresses, Set.mem_Ico, not_and_or, Nat.not_le, Nat.not_lt] at hout
  have hend : (mmu.offsetEnd a size).toNat ≤ (mmu.offset a).toNat + size.toNat := by
    rw [Mmu.offsetEnd, BitVec.toNat_add]
    exact Nat.mod_le _ _
  have hv := h.low
  rw [← h.base] at hv
  rw [Mmu.offset_toNat hlow] at hend
  have hindex : v.toNat - mmu.base.toNat < a.toNat - mmu.base.toNat ∨
      (mmu.offsetEnd a size).toNat ≤ v.toNat - mmu.base.toNat := by
    omega
  rw [mmuSetperm_inside hinside, Mmu.offset_toNat hlow] at hset
  cases hset
  exact ⟨h.base, h.low, h.byte, Eq.trans (Span.fill_of_not_mem hindex) h.perm, h.refuses⟩

theorem Mmu.Guards.allocate (h : mmu.Guards b v byte p) {size : Size} {perm : Perm}
    (hout : v.toNat ∉ addresses (mmu.currVaddr.setWidth 32, size)) :
    Returns (fun r => r.2.Guards b v byte p) (mmuAllocate mmu size perm) := by
  unfold mmuAllocate
  refine Transition.returns_ite (Transition.returns_ok h)
    (Transition.returns_ite (Transition.returns_error _) ?_)
  intro r hr
  obtain ⟨mmu', hset, hr⟩ := Transition.exists_of_bind_ok hr
  cases hr
  refine Mmu.Guards.setperm ?_ hout hset
  exact ⟨h.base, h.low, h.byte, h.perm, h.refuses⟩

end Guards

/-! ## Runs that leave the address alone -/

/-- The call sets no permission at `v`, and moves no more than the host can hold. -/
def MmuEvent.Spares (mmu : Mmu) (v : Vaddr) : MmuEvent → Prop
  | .setperm a size _ => v.toNat ∉ addresses (a, size)
  | .addMemory _ a size _ _ => v.toNat ∉ addresses (a, size) ∧ ¬ mmu.Extends a size
  | .allocate size _ _ | .allocateRaw size _ =>
      v.toNat ∉ addresses (mmu.currVaddr.setWidth 32, size)
  | .writeFrom _ _ size _ => size.toNat < 2 ^ 63
  | .readInto .. => True

def SparingStep (v : Vaddr) (mmu : Mmu) (event : MmuEvent) (mmu' : Mmu) : Prop :=
  MmuStep mmu event mmu' ∧ event.Spares mmu v

/-- The system call of the turn allocates nothing at `v`. -/
def Turn.Spares (t : Turn) (v : Vaddr) : Prop :=
  ∀ m, t.handled = some m → m.Allocates →
    v.toNat ∉ addresses (m.bus.mmu.currVaddr.setWidth 32, 0x100)

def SparingTurn (v : Vaddr) (t : Turn) (host : Host) (t' : Turn) : Prop :=
  ThreadStep emulatorTurn t host t' ∧ t'.Spares v

section Runs

variable {mmu mmu' : Mmu} {b v : Vaddr} {byte : BitVec 8} {p : Perm}

theorem SparingStep.guards {event : MmuEvent} (h : mmu.Guards b v byte p)
    (hstep : SparingStep v mmu event mmu') : mmu'.Guards b v byte p := by
  obtain ⟨hstep, hspares⟩ := hstep
  have hstable := guards_stable b v byte p
  cases event with
  | setperm a size perm => exact h.setperm hspares hstep
  | addMemory heap a size perm added =>
      obtain ⟨hout, hinside⟩ := hspares
      have hadd : mmuAddMemory heap mmu a size perm = .ok (added, mmu') := hstep
      unfold mmuAddMemory at hadd
      by_cases hbase : a < mmu.base
      · rw [if_pos hbase] at hadd
        cases hadd
      · rw [if_neg hbase, if_neg (by exact hinside)] at hadd
        obtain ⟨m, hset, hadd⟩ := Transition.exists_of_bind_ok hadd
        cases hadd
        refine Mmu.Guards.setperm ?_ hout hset
        exact ⟨h.base, h.low, h.byte, h.perm, h.refuses⟩
  | allocate size perm a => exact h.allocate hspares _ hstep
  | allocateRaw size a => exact h.allocate hspares _ hstep
  | writeFrom src a size count => exact hstable.writeFrom h src a hspares _ hstep
  | readInto dst a size count buf =>
      have hread := mmuReadInto_mmu mmu dst a size
      have hstep : mmuReadInto mmu dst a size = (count, buf, mmu') := hstep
      rw [hstep] at hread
      exact hstable.same h hread

theorem SparingTurn.guards {t t' : Turn} {host : Host} (h : t.machine.bus.mmu.Guards b v byte p)
    (hstep : SparingTurn v t host t') : t'.machine.bus.mmu.Guards b v byte p := by
  obtain ⟨hstep, hspares⟩ := hstep
  refine hstep.stable (guards_stable b v byte p) h ?_
  intro m hm hguards hallocates
  exact hguards.allocate (hspares m hm hallocates)

/-- The byte at `v` is as it was, and no permission to write was gained. -/
def Mmu.Unchanged (mmu mmu' : Mmu) (v : Vaddr) : Prop :=
  mmu'.byteOf v = mmu.byteOf v ∧
    (mmu'.permOf v &&& mpermWrite = mpermWrite → mmu.permOf v &&& mpermWrite = mpermWrite)

/-- Nothing that leaves the permissions at `v` alone changes it: no run of calls of the
MMU, and no run of the thread loop with its guest's stores and system calls. -/
structure Mmu.Protects (mmu : Mmu) (v : Vaddr) : Prop where
  calls : ∀ events mmu', Run (SparingStep v) mmu events mmu' → mmu.Unchanged mmu' v
  turns : ∀ t hosts t', t.machine.bus.mmu = mmu → Run (SparingTurn v) t hosts t' →
    mmu.Unchanged t'.machine.bus.mmu v

theorem Mmu.Guards.unchanged (h : mmu.Guards b v byte p) (h' : mmu'.Guards b v byte p) :
    mmu.Unchanged mmu' v := by
  refine ⟨h'.byte.trans h.byte.symm, ?_⟩
  rw [h'.perm, h.perm]
  exact id

theorem Mmu.Guards.protects (h : mmu.Guards b v byte p) : mmu.Protects v where
  calls := by
    intro events mmu' hrun
    have hkept : mmu'.Guards b v byte p := by
      induction hrun with
      | nil => exact h
      | snoc _ hstep ih => exact hstep.guards ih
    exact h.unchanged hkept
  turns := by
    rintro t hosts t' rfl hrun
    have hkept : t'.machine.bus.mmu.Guards b v byte p := by
      induction hrun with
      | nil => exact h
      | snoc _ hstep ih => exact hstep.guards ih
    exact h.unchanged hkept

/-- What a write of one byte leaves there. -/
theorem Mmu.Holds.written_one (hholds : mmu.Holds v 1) (src : Nat → BitVec 8) :
    (mmu.written src v 1).byteOf v = src 0 ∧
      (mmu.written src v 1).permOf v = permWritten (mmu.permOf v) := by
  have hoffset := Mmu.offset_toNat hholds.1
  have hone : (1 : Size).toNat = 1 := rfl
  have hend := mmu.offsetEnd_toNat v (show (1 : Size).toNat < 2 ^ 63 by decide)
  have hbyte : (mmu.written src v 1).byteOf v =
      Span.copy (mmu.offset v).toNat ((mmu.offset v).toNat + (1 : Size).toNat) src mmu.data
        (v.toNat - mmu.base.toNat) := rfl
  have hperm : (mmu.written src v 1).permOf v =
      Span.update (mmu.offset v).toNat (mmu.offsetEnd v 1).toNat (fun _ p => permWritten p)
        mmu.perm (v.toNat - mmu.base.toNat) := rfl
  rw [hbyte, hperm, hend, hoffset, Span.copy_of_mem (Nat.le_refl _) (by omega), Nat.sub_self,
    Span.update_of_mem (Nat.le_refl _) (by omega)]
  exact ⟨rfl, rfl⟩

/-- A write of another byte, where the permission lets it pass. -/
theorem Mmu.not_protects (hsized : mmu.size.toNat < 2 ^ 63) (hholds : mmu.Holds v 1)
    (hwritable : (mmu.permOf v).Writable) : ¬ mmu.Protects v := by
  intro hprotects
  have hone : (1 : Size).toNat = 1 := rfl
  have haccepts : mmu.Accepts v 1 mpermWrite := by
    rw [Mmu.accepts_write_iff hsized (by omega), hone]
    refine ⟨hholds, ?_⟩
    intro k hk
    have hzero : k = 0 := by omega
    rw [hzero, ← hholds.permOf_eq]
    exact hwritable
  have hwrite := @mmuWriteFrom_accepted mmu (fun _ => mmu.byteOf v + 1) v 1 (by omega) haccepts
  have hstep : SparingStep v mmu (.writeFrom (fun _ => mmu.byteOf v + 1) v 1 1) _ :=
    ⟨hwrite, show (1 : Size).toNat < 2 ^ 63 by decide⟩
  have hsame := (hprotects.calls _ _ (Run.single hstep)).1
  rw [(hholds.written_one _).1] at hsame
  have hlt := (mmu.byteOf v).isLt
  have htoNat := congrArg BitVec.toNat hsame
  rw [BitVec.toNat_add] at htoNat
  have hbyteOne : (1 : BitVec 8).toNat = 1 := rfl
  omega

end Runs

/-! ## The permissions behind the loop -/

theorem segmentPerm_writable {f : Word} :
    (segmentPerm f).Writable ↔ f &&& 2 ≠ 0 ∨ f &&& 4 ≠ 0 := by
  unfold segmentPerm
  by_cases hw : f &&& 2 = 0
  · rw [if_neg (not_not_intro hw)]
    by_cases hr : f &&& 4 = 0
    · have hraw : ¬ (f &&& 4 ≠ 0 ∧ f &&& 2 = 0) := fun h => h.1 hr
      rw [if_neg (not_not_intro hr), if_neg hraw]
      refine iff_of_false ?_ (not_or.mpr ⟨not_not_intro hw, not_not_intro hr⟩)
      split_ifs <;> decide
    · have hraw : f &&& 4 ≠ 0 ∧ f &&& 2 = 0 := ⟨hr, hw⟩
      rw [if_pos hr, if_pos hraw]
      refine iff_of_true ?_ (Or.inr hr)
      split_ifs <;> decide
  · rw [if_pos hw]
    refine iff_of_true ?_ (Or.inl hw)
    split_ifs <;> decide

/-! ## The blocks behind the loop -/

section Covers

variable {file : ElfFile} {heaps : Nat → Heap} {mmu : Mmu} {n : Nat}

/-- A segment that extends the memory leaves a block of permissions with as many bytes as the
memory has. -/
theorem ElfFile.extent_cases : file.extent mmu n = mmu.extent ∨
    mmu.extent.size < (file.extent mmu n).size ∧
      (file.extent mmu n).permBlock = (file.extent mmu n).size := by
  induction n with
  | zero => exact Or.inl rfl
  | succ n ih =>
      unfold ElfFile.extent
      by_cases hextends : (file.phdr n).Loads ∧
          (file.extent mmu n).size < (file.phdr n).endOffset mmu.base
      · obtain ⟨hloads, hlt⟩ := hextends
        rw [if_pos hloads, Extent.reach, if_pos hlt]
        refine Or.inr ⟨?_, rfl⟩
        rcases ih with hsame | ⟨hgrown, -⟩
        · rwa [hsame] at hlt
        · exact Nat.lt_trans hgrown hlt
      · have hsame : (if (file.phdr n).Loads then
            (file.extent mmu n).reach ((file.phdr n).endOffset mmu.base) else file.extent mmu n) =
            file.extent mmu n := by
          by_cases hloads : (file.phdr n).Loads
          · rw [if_pos hloads, Extent.reach, if_neg fun hlt => hextends ⟨hloads, hlt⟩]
          · rw [if_neg hloads]
        rwa [hsame]

theorem ElfFile.Inside.image_covers (hinside : file.Inside mmu) (hsized : mmu.size.toNat < 2 ^ 63)
    (hcovers : mmu.Covers) (hn : n ≤ file.phnum) : (file.image heaps mmu n).Covers := by
  induction n with
  | zero => exact hcovers
  | succ n ih =>
      have hprev := ih (by omega)
      by_cases hloads : (file.phdr n).Loads
      · have hplaced := @ElfFile.Inside.placed file heaps mmu n hinside hsized (by omega)
        have hkept := ElfFile.not_extends hsized hplaced (by
          rw [hinside.extent_eq (by omega)]
          exact Phdr.endOffset_le (hinside n hn hloads))
        rw [file.image_succ_of_loads hloads, Mmu.loaded, Mmu.grown_inside hkept]
        exact ⟨hprev.data, hprev.perm, hprev.dirty⟩
      · rwa [file.image_succ_of_not_loads hloads]

/-- The blocks cover the loaded memory exactly when no segment has extended it. -/
theorem ElfFile.Placed.image_covers_iff (hplaced : file.Placed heaps mmu file.phnum)
    (hsized : mmu.size.toNat < 2 ^ 63) (hcovers : mmu.Covers) :
    (file.image heaps mmu file.phnum).Covers ↔ file.Inside mmu := by
  constructor
  · intro hcovered i hi hloads
    obtain ⟨-, hextent⟩ := hplaced.image_layout hsized
    have hperm : 4 * (file.image heaps mmu file.phnum).extent.size ≤
        (file.image heaps mmu file.phnum).extent.permBlock := hcovered.perm
    rw [hextent] at hperm
    have hsame : file.extent mmu file.phnum = mmu.extent := by
      rcases @ElfFile.extent_cases file mmu file.phnum with hsame | ⟨hgrown, hblock⟩
      · exact hsame
      · omega
    have hend := @ElfFile.endOffset_le_extent file mmu file.phnum i hi hloads
    rw [hsame] at hend
    have hsize : (file.phdr i).vaddr.toNat + (file.phdr i).memsz.toNat - mmu.base.toNat ≤
        mmu.size.toNat := hend
    exact ⟨(hplaced i hi hloads).1, by omega⟩
  · intro hinside
    exact hinside.image_covers hsized hcovers (Nat.le_refl _)

end Covers

/-! ## Segments without `PF_W` -/

/-- From a memory on, the file bytes of the segments that lack `PF_W` are protected, and
nothing leaves the blocks behind the memory. -/
def ElfFile.ReadOnlyProtected (file : ElfFile) (mmu : Mmu) : Prop :=
  ∀ i < file.phnum, (file.phdr i).Loads → ¬ (file.phdr i).Writable →
    ∀ v : Vaddr, v.toNat ∈ (file.phdr i).fileBytes → mmu.Covers ∧ mmu.Protects v

/-- Every segment that lacks `PF_W` and has bytes in the file lacks `PF_R` too, and where there
is one, no segment extends the memory. -/
def ElfFile.ReadOnlyHidden (file : ElfFile) (mmu : Mmu) : Prop :=
  ∀ i < file.phnum, (file.phdr i).Loads → ¬ (file.phdr i).Writable →
    (file.phdr i).filesz ≠ 0 → file.Inside mmu ∧ ¬ (file.phdr i).Readable

section Protection

variable {file : ElfFile} {heaps : Nat → Heap} {mmu : Mmu}

/-- The permission of a file byte is that of the flags of its segment. -/
theorem ElfFile.Inside.image_permOf (hinside : file.Inside mmu) (hsized : mmu.size.toNat < 2 ^ 63)
    (hfile : file.WellFormed) (hapart : file.Apart) {i : Nat} (hi : i < file.phnum)
    (hloads : (file.phdr i).Loads) {v : Vaddr} (hv : v.toNat ∈ (file.phdr i).fileBytes) :
    (file.image heaps mmu file.phnum).permOf v = segmentPerm (file.phdr i).flags := by
  have hplaced := @ElfFile.Inside.placed file heaps mmu _ hinside hsized (Nat.le_refl _)
  unfold Mmu.permOf
  rw [(hplaced.image_layout hsized).1]
  exact (hinside.image_fileBytes hfile hapart hsized hi hloads hv).2

theorem Phdr.filesz_ne_zero {p : Phdr} {v : Nat} (hv : v ∈ p.fileBytes) : p.filesz ≠ 0 := by
  intro hzero
  obtain ⟨hlo, hhi⟩ := hv
  rw [hzero] at hhi
  exact absurd hhi (Nat.not_lt.mpr hlo)

/-- Without `PF_R` the permission of the flags passes no write. -/
theorem ElfFile.Inside.protects (hinside : file.Inside mmu) (hsized : mmu.size.toNat < 2 ^ 63)
    (hfile : file.WellFormed) (hapart : file.Apart) {i : Nat} (hi : i < file.phnum)
    (hloads : (file.phdr i).Loads) (hreadOnly : ¬ (file.phdr i).Writable)
    (hunreadable : ¬ (file.phdr i).Readable) {v : Vaddr} (hv : v.toNat ∈ (file.phdr i).fileBytes) :
    (file.image heaps mmu file.phnum).Protects v := by
  have hplaced := @ElfFile.Inside.placed file heaps mmu _ hinside hsized (Nat.le_refl _)
  have hrefuses : ¬ (segmentPerm (file.phdr i).flags).Writable := by
    rw [segmentPerm_writable]
    rintro (hw | hr)
    · exact hreadOnly hw
    · exact hunreadable hr
  have hguards : (file.image heaps mmu file.phnum).Guards mmu.base v
      ((file.image heaps mmu file.phnum).byteOf v) (segmentPerm (file.phdr i).flags) :=
    ⟨(hplaced.image_layout hsized).1, Nat.le_trans (hinside i hi hloads).1 hv.1, rfl,
      hinside.image_permOf hsized hfile hapart hi hloads hv, hrefuses⟩
  exact hguards.protects

/-- A byte of a segment with `PF_R` is not protected. -/
theorem ElfFile.Inside.not_readable (hinside : file.Inside mmu) (hsized : mmu.size.toNat < 2 ^ 63)
    (hfile : file.WellFormed) (hapart : file.Apart) {i : Nat} (hi : i < file.phnum)
    (hloads : (file.phdr i).Loads) {v : Vaddr} (hv : v.toNat ∈ (file.phdr i).fileBytes)
    (hprotects : (file.image heaps mmu file.phnum).Protects v) : ¬ (file.phdr i).Readable := by
  intro hreadable
  have hplaced := @ElfFile.Inside.placed file heaps mmu _ hinside hsized (Nat.le_refl _)
  have hmem := Phdr.fileBytes_subset (hfile.sizes i hi hloads) hv
  have hwritable : ((file.image heaps mmu file.phnum).permOf v).Writable := by
    rw [hinside.image_permOf hsized hfile hapart hi hloads hv, segmentPerm_writable]
    exact Or.inr hreadable
  exact Mmu.not_protects (hplaced.image_size hsized) (hplaced.holds hsized hi hloads hmem) hwritable
    hprotects

end Protection

/-- Behind every load, on every host, the segments without `PF_W` are protected exactly when
those with bytes in the file lack `PF_R` and no segment extends the memory of one. -/
theorem readOnlyProtected_iff {file : ElfFile} {mmu : Mmu} (hcovers : mmu.Covers)
    (hfile : file.WellFormed) (hapart : file.Apart) :
    (∀ heaps elf mmu', elfLoad true heaps file mmu = .ok (some elf, mmu') →
        file.ReadOnlyProtected mmu') ↔
      (file.StartsAt mmu.base → file.ReadOnlyHidden mmu) := by
  have hsized := hcovers.sized
  constructor
  · intro hprotected hstarts i hi hloads hreadOnly hfilesz
    have hplaced := @ElfFile.StartsAt.placed file (fun _ => generousHeap) mmu _ hstarts hsized
      (fun _ => generousHeap_generous) (Nat.le_refl _)
    have hload := (elfLoad_iff hfile hsized).mpr ⟨rfl, hplaced, rfl, rfl⟩
    have hpos : 0 < (file.phdr i).filesz.toNat :=
      Nat.pos_of_ne_zero fun hzero => hfilesz (BitVec.eq_of_toNat_eq hzero)
    have hv : (file.phdr i).vaddr.toNat ∈ (file.phdr i).fileBytes := ⟨Nat.le_refl _, by omega⟩
    obtain ⟨hcovered, hprotects⟩ := hprotected _ _ _ hload i hi hloads hreadOnly _ hv
    have hinside := (hplaced.image_covers_iff hsized hcovers).mp hcovered
    exact ⟨hinside, hinside.not_readable hsized hfile hapart hi hloads hv hprotects⟩
  · intro hhidden heaps elf mmu' hload i hi hloads hreadOnly v hv
    obtain ⟨-, hplaced, rfl, -⟩ := (elfLoad_iff hfile hsized).mp hload
    have hstarts : file.StartsAt mmu.base := fun i hi hloads => (hplaced i hi hloads).1
    obtain ⟨hinside, hunreadable⟩ :=
      hhidden hstarts i hi hloads hreadOnly (Phdr.filesz_ne_zero hv)
    exact ⟨hinside.image_covers hsized hcovers (Nat.le_refl _),
      hinside.protects hsized hfile hapart hi hloads hreadOnly hunreadable hv⟩

theorem noteFile_readOnly : ¬ (noteFile.phdr 1).Writable := by
  rw [noteFile_segment]
  decide

theorem noteFile_first : (0x10000 : Vaddr).toNat ∈ (noteFile.phdr 1).fileBytes := by
  rw [noteFile_segment]
  exact ⟨by decide, by decide⟩

theorem noteFile_unprotected : ∃ mmu : Mmu,
    mmuInit generousHeap 0x10000 0x1000 = .ok (some mmu) ∧
    ¬ ∀ heaps elf mmu', elfLoad true heaps noteFile mmu = .ok (some elf, mmu') →
      noteFile.ReadOnlyProtected mmu' := by
  obtain ⟨mmu, hinit⟩ := generousHeap_init
  have hfresh := mmuInit_fresh hinit
  refine ⟨mmu, hinit, fun hprotected => ?_⟩
  have hcovers : mmu.Covers := hfresh.covers (by decide)
  have hhidden := (readOnlyProtected_iff hcovers noteFile_wellFormed
    noteFile_apart).mp hprotected (noteFile_startsAt hfresh)
  have hunreadable := (hhidden 1 noteFile_one noteFile_segment_loads noteFile_readOnly
    (Phdr.filesz_ne_zero noteFile_first)).2
  rw [noteFile_segment] at hunreadable
  exact hunreadable (by decide)

/-- At the memory stage of a `sb` of 0xff to the start of RAM. -/
def storingMachine (mmu : Mmu) : Machine :=
  { core := { coreInit cpuInitCore 0 ramStart with
      state := .memory
      aluOut := 0xff
      decoded := { cpuInitCore.decoded with
        memOffset := ramStart, memAccessWidth := .byte, writeMem := true } }
    bus := mainBus mmu
    calls := [] }

theorem storingMachine_stores {mmu : Mmu} (hram : (mainBus mmu).InRam ramStart 1)
    (hwritable : ∀ i < 1, (mmu.permFrom ramStart i).Writable) (v : Vaddr) :
    ∃ t, SparingTurn v (Turn.first (storingMachine mmu)) quietHost t ∧
      t.machine.bus.mmu = mmu.written (Bytes.byteAt (0xff : Word)) ramStart 1 := by
  obtain ⟨bus, hwrite, -, hmmu, -, hstatus⟩ :=
    @busWriteSingle_accepted (mainBus mmu) ramStart .byte 0xff rfl hram hwritable
  have haccess : memoryAccess 0 (storingMachine mmu) =
      busWriteSingle (mainBus mmu) (wide ramStart) 0xff .byte >>= fun bus =>
        if bus.status ≠ .ok then _ else .ok { storingMachine mmu with bus := bus } := rfl
  rw [hwrite, Transition.ok_bind, if_neg (not_not_intro hstatus)] at haccess
  have hcycle : coreCycle (quietHost.residue 0) (storingMachine mmu) =
      .ok (Machine.advance .writeback { storingMachine mmu with bus := bus }) := by
    rw [coreCycle_memory_eq rfl]
    show memoryAccess 0 _ >>= _ = _
    rw [haccess]
    rfl
  have hturn : emulatorTurn quietHost (storingMachine mmu) = .ok
      { machine := Machine.advance .writeback { storingMachine mmu with bus := bus }
        handled := none
        running := true } := by
    rw [emulatorTurn_eq, hcycle]
    rfl
  exact ⟨_, ⟨⟨rfl, hturn⟩, fun m hm => nomatch hm⟩, hmmu⟩

/-- The first byte of a segment with the flag `PF_R` only, behind a store of the guest. -/
theorem noteFile_overwritten : ∃ (mmu mmu' : Mmu) (t : Turn),
    noteFile.WellFormed ∧ noteFile.Apart ∧
    mmuInit generousHeap 0x10000 0x1000 = .ok (some mmu) ∧
    elfLoad true (fun _ => generousHeap) noteFile mmu = .ok (some { entry := 0x10000 }, mmu') ∧
    ¬ (noteFile.phdr 1).Writable ∧ (0x10000 : Vaddr).toNat ∈ (noteFile.phdr 1).fileBytes ∧
    Run (SparingTurn 0x10000) (Turn.first (storingMachine mmu')) [quietHost] t ∧
    mmu'.byteOf 0x10000 = 0x13 ∧ t.machine.bus.mmu.byteOf 0x10000 = 0xff ∧
    mmu'.permOf 0x10000 &&& mpermWrite = 0 ∧
    t.machine.bus.mmu.permOf 0x10000 &&& mpermWrite = mpermWrite := by
  obtain ⟨mmu, hinit⟩ := generousHeap_init
  obtain ⟨mmu', hload, hnote⟩ := noteFile_loaded (mmuInit_fresh hinit)
  have hholds : mmu'.Holds 0x10000 1 := hnote.holds (by decide)
  have hbyte : mmu'.byteOf 0x10000 = 0x13 := by
    rw [hholds.byteOf_eq, hnote.bytes 0 (by decide)]
    rfl
  have hperm : mmu'.permOf 0x10000 = mpermRead ||| mpermRaw := by
    rw [hholds.permOf_eq]
    exact hnote.perms 0 (by decide)
  have hram : (mainBus mmu').InRam ramStart 1 := {
    routed := ⟨0, ramDevice .ready, mainBus_routes mmu' (by decide), rfl, rfl⟩
    held := hholds
    sized := hnote.sized
    addressed := by decide }
  have hwritable : ∀ i < 1, (mmu'.permFrom 0x10000 i).Writable := by
    intro i hi
    rw [hnote.perms i (by omega)]
    decide
  obtain ⟨t, hstep, hmmu⟩ := storingMachine_stores hram hwritable 0x10000
  obtain ⟨hwritten, hgained⟩ := hholds.written_one (Bytes.byteAt (0xff : Word))
  refine ⟨mmu, mmu', t, noteFile_wellFormed, noteFile_apart, hinit, hload, noteFile_readOnly,
    noteFile_first, Run.single hstep, hbyte, ?_, ?_, ?_⟩
  · rw [hmmu]
    exact hwritten.trans (by decide)
  · rw [hperm]
    decide
  · rw [hmmu]
    show Mmu.permOf (mmu'.written _ 0x10000 1) _ &&& _ = _
    rw [hgained, hperm]
    decide

end CRiscV
