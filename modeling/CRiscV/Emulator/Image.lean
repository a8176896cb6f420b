/-
The memory that the loop of `elf_load` leaves: what the program headers say, what
one segment does, and what the loop does over all of them.
-/
import Mathlib.Data.Set.Lattice
import Mathlib.Order.CompletePartialOrder
import CRiscV.Emulator.Elf
import CRiscV.Mmu.Segment

namespace CRiscV

/-! ## Headers -/

/-- The fields of a program header that the loader reads. -/
structure Phdr where
  type : Word
  offset : Word
  vaddr : Vaddr
  filesz : Word
  memsz : Word
  flags : Word
  deriving DecidableEq

def ElfFile.entry (file : ElfFile) : Vaddr := file.wordAt Elf32Ehdr.eEntry

def ElfFile.phoff (file : ElfFile) : Nat := (file.wordAt Elf32Ehdr.ePhoff).toNat

def ElfFile.phnum (file : ElfFile) : Nat := (file.halfAt Elf32Ehdr.ePhnum).toNat

def ElfFile.phdrAt (file : ElfFile) (off : Nat) : Phdr where
  type := file.wordAt (off + Elf32Phdr.pType)
  offset := file.wordAt (off + Elf32Phdr.pOffset)
  vaddr := file.wordAt (off + Elf32Phdr.pVaddr)
  filesz := file.wordAt (off + Elf32Phdr.pFilesz)
  memsz := file.wordAt (off + Elf32Phdr.pMemsz)
  flags := file.wordAt (off + Elf32Phdr.pFlags)

/-- Program header `i`. -/
def ElfFile.phdr (file : ElfFile) (i : Nat) : Phdr :=
  file.phdrAt (file.phoff + Elf32Phdr.size * i)

/-- A header of type `PT_LOAD`. -/
def Phdr.Loads (p : Phdr) : Prop := p.type = 1

instance (p : Phdr) : Decidable p.Loads := inferInstanceAs (Decidable (_ = _))

/-- `PF_R`. -/
def Phdr.Readable (p : Phdr) : Prop := p.flags &&& 4 ≠ 0

/-- `PF_W`. -/
def Phdr.Writable (p : Phdr) : Prop := p.flags &&& 2 ≠ 0

instance (p : Phdr) : Decidable p.Readable := inferInstanceAs (Decidable (_ ≠ _))

instance (p : Phdr) : Decidable p.Writable := inferInstanceAs (Decidable (_ ≠ _))

/-- The addresses of a segment, of the part that comes from the file, and of the rest. -/
def Phdr.memory (p : Phdr) : Set Nat := Set.Ico p.vaddr.toNat (p.vaddr.toNat + p.memsz.toNat)

def Phdr.fileBytes (p : Phdr) : Set Nat := Set.Ico p.vaddr.toNat (p.vaddr.toNat + p.filesz.toNat)

def Phdr.tail (p : Phdr) : Set Nat :=
  Set.Ico (p.vaddr.toNat + p.filesz.toNat) (p.vaddr.toNat + p.memsz.toNat)

/-- A 32-bit little-endian file whose table, and whose segments' bytes, are in it. -/
structure ElfFile.WellFormed (file : ElfFile) : Prop where
  header : Elf32Ehdr.size ≤ file.size
  eiClass : file.byte Elf32Ehdr.eiClass = 1
  eiData : file.byte Elf32Ehdr.eiData = 1
  table : file.phoff + Elf32Phdr.size * file.phnum ≤ file.size
  sizes : ∀ i < file.phnum, (file.phdr i).Loads →
    (file.phdr i).filesz.toNat ≤ (file.phdr i).memsz.toNat
  contents : ∀ i < file.phnum, (file.phdr i).Loads →
    (file.phdr i).offset.toNat + (file.phdr i).filesz.toNat ≤ file.size

/-- The segments are pairwise disjoint in memory. -/
def ElfFile.Apart (file : ElfFile) : Prop :=
  ∀ i < file.phnum, ∀ j < file.phnum, i ≠ j → (file.phdr i).Loads → (file.phdr j).Loads →
    Disjoint (file.phdr i).memory (file.phdr j).memory

/-- The segments start at an address or above it. -/
def ElfFile.StartsAt (file : ElfFile) (base : Vaddr) : Prop :=
  ∀ i < file.phnum, (file.phdr i).Loads → base.toNat ≤ (file.phdr i).vaddr.toNat

/-! ## One segment -/

theorem Span.fill_update {α : Type} (lo hi : Nat) (v : α) (g : Nat → α → α) (a : Nat → α) :
    Span.fill lo hi v (Span.update lo hi g a) = Span.fill lo hi v a := by
  funext i
  by_cases hi' : lo ≤ i ∧ i < hi
  · rw [Span.fill_of_mem hi'.1 hi'.2, Span.fill_of_mem hi'.1 hi'.2]
  · rw [Span.fill_of_not_mem (by omega), Span.fill_of_not_mem (by omega),
      Span.update_of_not_mem (by omega)]

/-- The memory with a segment stored in it: its bytes from the file, with the permission
of its flags, and behind them the permission that `mmu_add_memory` gave. -/
def Mmu.stored (mmu : Mmu) (src : Nat → BitVec 8) (p : Phdr) : Mmu :=
  let lo := p.vaddr.toNat - mmu.base.toNat
  { mmu with
    state := .ok
    data := Span.copy lo (lo + p.filesz.toNat) src mmu.data
    perm := Span.fill lo (lo + p.filesz.toNat) (segmentPerm p.flags)
      (Span.fill lo (lo + p.memsz.toNat) (mpermWrite ||| mpermRaw) mmu.perm)
    dirty := Span.fill (lo / dirtyPageSize.toNat) ((lo + p.filesz.toNat) / dirtyPageSize.toNat) true
      mmu.dirty }

/-- The memory behind a turn of the loop that loads a segment. -/
def Mmu.loaded (mmu : Mmu) (heap : Heap) (file : ElfFile) (p : Phdr) : Mmu :=
  (mmu.grown heap p.vaddr (wide p.memsz)).stored (fun k => file.byte (p.offset.toNat + k)) p

/-- The host has the blocks that the segment needs. -/
def Phdr.Granted (p : Phdr) (heap : Heap) (mmu : Mmu) : Prop :=
  mmu.Extends p.vaddr (wide p.memsz) → heap.GrantsAll (mmu.extendedSize p.vaddr (wide p.memsz))

theorem raw_writable : (mpermWrite ||| mpermRaw).Writable := by decide

/-- The body of the loop on the fields of a header. -/
def loadPhdr (heap : Heap) (file : ElfFile) (p : Phdr) (mmu : Mmu) : Except Abort (Bool × Mmu) := do
  let (added, mmu) ← mmuAddMemory heap mmu p.vaddr (wide p.memsz) (mpermWrite ||| mpermRaw)
  if !added then return (false, mmu)
  else
    let (count, mmu) ←
      mmuWriteFrom mmu (fun k => file.byte (p.offset.toNat + k)) p.vaddr (wide p.filesz)
    file.copied p.offset.toNat count.toNat
    let mmu ← mmuSetperm mmu p.vaddr (wide p.filesz) (segmentPerm p.flags)
    return (true, mmu)

section Segment

variable {file : ElfFile} {heap : Heap} {mmu mmu' : Mmu} {phdr : Nat}

/-- The flags are the last field that is read. -/
theorem elfLoadSegment_fields (hin : phdr + Elf32Phdr.pFlags + 4 ≤ file.size) :
    elfLoadSegment heap file phdr mmu = loadPhdr heap file (file.phdrAt phdr) mmu := by
  have hword : ∀ k, k ≤ Elf32Phdr.pFlags →
      file.word (phdr + k) = .ok (file.wordAt (phdr + k)) := by
    intro k hk
    exact if_pos (by omega)
  unfold elfLoadSegment
  rw [hword _ (by decide), hword _ (by decide), hword _ (by decide), hword _ (by decide),
    hword _ (by decide)]
  rfl

/-- In a header that is in the file every field is. -/
theorem elfLoadSegment_eq (hin : phdr + Elf32Phdr.size ≤ file.size) :
    elfLoadSegment heap file phdr mmu = loadPhdr heap file (file.phdrAt phdr) mmu := by
  have hflags : Elf32Phdr.pFlags + 4 ≤ Elf32Phdr.size := by decide
  exact elfLoadSegment_fields (by omega)

theorem loadPhdr_granted {p : Phdr} (h : loadPhdr heap file p mmu = .ok (true, mmu')) :
    mmu.base.toNat ≤ p.vaddr.toNat ∧ p.Granted heap mmu := by
  obtain ⟨⟨added, m⟩, hadd, h⟩ := Transition.exists_of_bind_ok h
  cases added with
  | false => cases h
  | true =>
      obtain ⟨hbase, hgrants⟩ := mmuAddMemory_added hadd
      rw [BitVec.lt_def, Nat.not_lt] at hbase
      exact ⟨hbase, hgrants⟩

/-- In memory that holds the segment the change of permissions, the write and the second
change succeed. -/
theorem segment_stored {p : Phdr} (hsized : mmu.size.toNat < 2 ^ 63)
    (hholds : mmu.Holds p.vaddr p.memsz.toNat) (hsizes : p.filesz.toNat ≤ p.memsz.toNat)
    (src : Nat → BitVec 8) :
    ∃ raw written,
      mmuSetperm mmu p.vaddr (wide p.memsz) (mpermWrite ||| mpermRaw) = .ok raw ∧
      mmuWriteFrom raw src p.vaddr (wide p.filesz) = .ok (wide p.filesz, written) ∧
      mmuSetperm written p.vaddr (wide p.filesz) (segmentPerm p.flags) =
        .ok (mmu.stored src p) := by
  obtain ⟨hbase, hend⟩ := hholds
  have hraw := mmuSetperm_word hsized ⟨hbase, hend⟩ (mpermWrite ||| mpermRaw)
  have hfile : mmu.Holds p.vaddr p.filesz.toNat := ⟨hbase, by omega⟩
  refine ⟨_, _, hraw, mmuWriteFrom_word ?_ ?_ ?_ src, ?_⟩
  · exact hsized
  · exact hfile
  · intro x hlo hhi
    dsimp only at hlo hhi ⊢
    rw [Span.fill_of_mem hlo (by omega)]
    exact raw_writable
  · rw [Mmu.written_word (by exact hbase), mmuSetperm_word (by exact hsized) (by exact hfile)]
    simp only [Span.fill_update]
    rfl

/-- The addition, the write and the change of permissions all succeed. -/
theorem loadPhdr_copied {p : Phdr} (hsizes : p.filesz.toNat ≤ p.memsz.toNat)
    (hcopied : file.copied p.offset.toNat p.filesz.toNat = .ok ())
    (hsized : mmu.size.toNat < 2 ^ 63) (hbase : mmu.base.toNat ≤ p.vaddr.toNat)
    (hgrants : p.Granted heap mmu) :
    loadPhdr heap file p mmu = .ok (true, mmu.loaded heap file p) := by
  have hmemsz := wide_lt p.memsz
  have hvaddr := p.vaddr.isLt
  have hgrownSize := Mmu.grown_size hbase hsized hmemsz hgrants
  have hholds := Mmu.grown_holds hbase hsized hmemsz hgrants
  rw [wide_toNat] at hholds
  obtain ⟨raw, written, hraw, hwrite, hstored⟩ :=
    segment_stored (by omega) hholds hsizes fun k => file.byte (p.offset.toNat + k)
  rw [← wide_toNat p.filesz] at hcopied
  unfold loadPhdr
  rw [mmuAddMemory_grown (by rw [BitVec.lt_def]; omega) hgrants, hraw, Transition.ok_bind,
    Transition.ok_bind]
  dsimp only
  rw [Bool.not_true, if_neg Bool.false_ne_true, hwrite, Transition.ok_bind]
  dsimp only
  rw [hcopied, Transition.ok_bind, hstored]
  rfl

theorem loadPhdr_loaded {p : Phdr} (hsizes : p.filesz.toNat ≤ p.memsz.toNat)
    (hcontents : p.offset.toNat + p.filesz.toNat ≤ file.size) (hsized : mmu.size.toNat < 2 ^ 63)
    (hbase : mmu.base.toNat ≤ p.vaddr.toNat) (hgrants : p.Granted heap mmu) :
    loadPhdr heap file p mmu = .ok (true, mmu.loaded heap file p) :=
  loadPhdr_copied hsizes (if_pos (Or.inr hcontents)) hsized hbase hgrants

end Segment

/-! ## What a stored segment shows -/

section Stored

variable {mmu : Mmu} {src : Nat → BitVec 8} {p : Phdr} {a : Nat}

theorem Mmu.stored_data_of_mem (hbase : mmu.base.toNat ≤ p.vaddr.toNat) (ha : a ∈ p.fileBytes) :
    (mmu.stored src p).data (a - mmu.base.toNat) = src (a - p.vaddr.toNat) := by
  obtain ⟨hlo, hhi⟩ := ha
  show Span.copy _ _ src mmu.data _ = _
  rw [Span.copy_of_mem (by omega) (by omega)]
  congr 1
  omega

theorem Mmu.stored_data_of_not_mem (hbase : mmu.base.toNat ≤ p.vaddr.toNat)
    (hlow : mmu.base.toNat ≤ a) (ha : a ∉ p.fileBytes) :
    (mmu.stored src p).data (a - mmu.base.toNat) = mmu.data (a - mmu.base.toNat) := by
  simp only [Phdr.fileBytes, Set.mem_Ico, not_and_or, Nat.not_le, Nat.not_lt] at ha
  exact Span.copy_of_not_mem (by omega)

theorem Mmu.stored_perm_of_mem (hbase : mmu.base.toNat ≤ p.vaddr.toNat) (ha : a ∈ p.fileBytes) :
    (mmu.stored src p).perm (a - mmu.base.toNat) = segmentPerm p.flags := by
  obtain ⟨hlo, hhi⟩ := ha
  exact Span.fill_of_mem (by omega) (by omega)

theorem Mmu.stored_perm_of_tail (hbase : mmu.base.toNat ≤ p.vaddr.toNat) (ha : a ∈ p.tail) :
    (mmu.stored src p).perm (a - mmu.base.toNat) = mpermWrite ||| mpermRaw := by
  obtain ⟨hlo, hhi⟩ := ha
  show Span.fill _ _ _ (Span.fill _ _ _ mmu.perm) _ = _
  rw [Span.fill_of_not_mem (by omega), Span.fill_of_mem (by omega) (by omega)]

theorem Mmu.stored_perm_of_not_mem (hbase : mmu.base.toNat ≤ p.vaddr.toNat)
    (hsizes : p.filesz.toNat ≤ p.memsz.toNat) (hlow : mmu.base.toNat ≤ a) (ha : a ∉ p.memory) :
    (mmu.stored src p).perm (a - mmu.base.toNat) = mmu.perm (a - mmu.base.toNat) := by
  simp only [Phdr.memory, Set.mem_Ico, not_and_or, Nat.not_le, Nat.not_lt] at ha
  show Span.fill _ _ _ (Span.fill _ _ _ mmu.perm) _ = _
  rw [Span.fill_of_not_mem (by omega), Span.fill_of_not_mem (by omega)]

end Stored

theorem Phdr.fileBytes_subset {p : Phdr} (hsizes : p.filesz.toNat ≤ p.memsz.toNat) :
    p.fileBytes ⊆ p.memory := by
  intro a ha
  obtain ⟨hlo, hhi⟩ := ha
  exact ⟨hlo, by omega⟩

theorem Phdr.tail_subset (p : Phdr) : p.tail ⊆ p.memory := by
  intro a ha
  obtain ⟨hlo, hhi⟩ := ha
  exact ⟨by omega, hhi⟩

/-! ## The loop -/

/-- The memory in front of turn `n` of the loop, as long as every segment is loaded. -/
def ElfFile.image (file : ElfFile) (heaps : Nat → Heap) (mmu : Mmu) : Nat → Mmu
  | 0 => mmu
  | n + 1 =>
      if (file.phdr n).Loads then
        (file.image heaps mmu n).loaded (heaps n) file (file.phdr n)
      else file.image heaps mmu n

/-- The first `n` turns find each segment at the base or above it, and the host has the
blocks that it needs. -/
def ElfFile.Placed (file : ElfFile) (heaps : Nat → Heap) (mmu : Mmu) (n : Nat) : Prop :=
  ∀ i < n, (file.phdr i).Loads →
    mmu.base.toNat ≤ (file.phdr i).vaddr.toNat ∧
      (file.phdr i).Granted (heaps i) (file.image heaps mmu i)

/-- The sizes of the memory and of the block of permissions. -/
structure Extent where
  size : Nat
  permBlock : Nat

def Mmu.extent (mmu : Mmu) : Extent where
  size := mmu.size.toNat
  permBlock := mmu.permBlock.toNat

/-- The end of a segment, from the base on. -/
def Phdr.endOffset (p : Phdr) (base : Vaddr) : Nat :=
  p.vaddr.toNat + p.memsz.toNat - base.toNat

/-- Memory that reaches up to `n`. -/
def Extent.reach (e : Extent) (n : Nat) : Extent :=
  if e.size < n then { size := n, permBlock := n } else e

/-- The sizes in front of turn `n`. -/
def ElfFile.extent (file : ElfFile) (mmu : Mmu) : Nat → Extent
  | 0 => mmu.extent
  | n + 1 =>
      if (file.phdr n).Loads then
        (file.extent mmu n).reach ((file.phdr n).endOffset mmu.base)
      else file.extent mmu n

section Loop

variable {file : ElfFile} {heaps : Nat → Heap} {heap : Heap} {mmu mmu' : Mmu} {n : Nat} {p : Phdr}

theorem Phdr.endOffset_lt (p : Phdr) (base : Vaddr) : p.endOffset base < 2 ^ 33 := by
  have hvaddr := p.vaddr.isLt
  have hmemsz := p.memsz.isLt
  unfold Phdr.endOffset
  omega

theorem Extent.le_reach (e : Extent) (m : Nat) :
    e.size ≤ (e.reach m).size ∧ m ≤ (e.reach m).size := by
  unfold Extent.reach
  by_cases h : e.size < m
  · rw [if_pos h]
    exact ⟨Nat.le_of_lt h, Nat.le_refl m⟩
  · rw [if_neg h]
    exact ⟨Nat.le_refl _, Nat.le_of_not_lt h⟩

/-- The memory reaches the end of every segment that was loaded. -/
theorem ElfFile.endOffset_le_extent {i : Nat} (hi : i < n) (hloads : (file.phdr i).Loads) :
    (file.phdr i).endOffset mmu.base ≤ (file.extent mmu n).size := by
  induction n with
  | zero => omega
  | succ n ih =>
      have hreach := (file.extent mmu n).le_reach ((file.phdr n).endOffset mmu.base)
      unfold ElfFile.extent
      rcases Nat.lt_or_eq_of_le (Nat.le_of_lt_succ hi) with hlt | rfl
      · have hprev := ih hlt
        split_ifs
        · exact Nat.le_trans hprev hreach.1
        · exact hprev
      · rw [if_pos hloads]
        exact hreach.2

theorem ElfFile.extent_size_lt (hsized : mmu.size.toNat < 2 ^ 63) :
    (file.extent mmu n).size < 2 ^ 63 := by
  induction n with
  | zero => exact hsized
  | succ n ih =>
      have hend := (file.phdr n).endOffset_lt mmu.base
      unfold ElfFile.extent Extent.reach
      split_ifs
      · show (file.phdr n).endOffset mmu.base < 2 ^ 63
        omega
      · exact ih
      · exact ih

theorem Phdr.extends_iff (hsized : mmu.size.toNat < 2 ^ 63) :
    mmu.Extends p.vaddr (wide p.memsz) ↔ mmu.size.toNat < p.endOffset mmu.base := by
  rw [Mmu.extends_iff hsized (wide_lt p.memsz), wide_toNat]
  unfold Phdr.endOffset
  omega

theorem Phdr.extendedSize_toNat (hbase : mmu.base.toNat ≤ p.vaddr.toNat) :
    (mmu.extendedSize p.vaddr (wide p.memsz)).toNat = p.endOffset mmu.base := by
  rw [Mmu.extendedSize_toNat hbase (wide_lt p.memsz), wide_toNat]
  rfl

theorem Mmu.loaded_extent (hsized : mmu.size.toNat < 2 ^ 63)
    (hbase : mmu.base.toNat ≤ p.vaddr.toNat) (hgranted : p.Granted heap mmu) :
    (mmu.loaded heap file p).extent = mmu.extent.reach (p.endOffset mmu.base) := by
  have hextends := p.extends_iff hsized
  have hsize := p.extendedSize_toNat hbase
  have hgrown : (mmu.loaded heap file p).extent =
      (mmu.grown heap p.vaddr (wide p.memsz)).extent := rfl
  rw [hgrown]
  unfold Extent.reach
  by_cases h : mmu.Extends p.vaddr (wide p.memsz)
  · rw [if_pos (show mmu.extent.size < p.endOffset mmu.base from hextends.mp h), ← hsize]
    unfold Mmu.grown
    rw [if_pos h, mmuExtend_granted (hgranted h)]
    rfl
  · rw [if_neg (show ¬ mmu.extent.size < p.endOffset mmu.base from mt hextends.mpr h),
      Mmu.grown_inside h]
    rfl

theorem Mmu.loaded_base (hgranted : p.Granted heap mmu) :
    (mmu.loaded heap file p).base = mmu.base := Mmu.grown_base hgranted

theorem ElfFile.image_succ_of_loads (h : (file.phdr n).Loads) :
    file.image heaps mmu (n + 1) =
      (file.image heaps mmu n).loaded (heaps n) file (file.phdr n) := if_pos h

theorem ElfFile.image_succ_of_not_loads (h : ¬ (file.phdr n).Loads) :
    file.image heaps mmu (n + 1) = file.image heaps mmu n := if_neg h

theorem ElfFile.Placed.mono {m : Nat} (h : file.Placed heaps mmu n) (hle : m ≤ n) :
    file.Placed heaps mmu m := fun i hi => h i (by omega)

theorem ElfFile.Placed.image_layout (hsized : mmu.size.toNat < 2 ^ 63)
    (h : file.Placed heaps mmu n) :
    (file.image heaps mmu n).base = mmu.base ∧
      (file.image heaps mmu n).extent = file.extent mmu n := by
  induction n with
  | zero => exact ⟨rfl, rfl⟩
  | succ n ih =>
      obtain ⟨hbase, hextent⟩ := ih (h.mono (Nat.le_succ n))
      by_cases hloads : (file.phdr n).Loads
      · obtain ⟨hlow, hgranted⟩ := h n (Nat.lt_succ_self n) hloads
        have hsize : (file.image heaps mmu n).size.toNat < 2 ^ 63 := by
          have hlt := @ElfFile.extent_size_lt file mmu n hsized
          rwa [← hextent] at hlt
        rw [file.image_succ_of_loads hloads, Mmu.loaded_base hgranted, ElfFile.extent,
          if_pos hloads, ← hextent, ← hbase]
        rw [← hbase] at hlow
        exact ⟨rfl, Mmu.loaded_extent hsize hlow hgranted⟩
      · rw [file.image_succ_of_not_loads hloads, ElfFile.extent, if_neg hloads]
        exact ⟨hbase, hextent⟩

theorem ElfFile.Placed.image_size (hsized : mmu.size.toNat < 2 ^ 63)
    (h : file.Placed heaps mmu n) : (file.image heaps mmu n).size.toNat < 2 ^ 63 := by
  have hlt := @ElfFile.extent_size_lt file mmu n hsized
  rwa [← (h.image_layout hsized).2] at hlt

/-- An address of a loaded segment is in the memory. -/
theorem ElfFile.Placed.holds (hsized : mmu.size.toNat < 2 ^ 63) (h : file.Placed heaps mmu n)
    {i : Nat} (hi : i < n) (hloads : (file.phdr i).Loads) {v : Vaddr}
    (hv : v.toNat ∈ (file.phdr i).memory) : (file.image heaps mmu n).Holds v 1 := by
  obtain ⟨hbase, hextent⟩ := h.image_layout hsized
  have hend := @ElfFile.endOffset_le_extent file mmu n i hi hloads
  have hlow := (h i hi hloads).1
  obtain ⟨hlo, hhi⟩ := hv
  rw [← hextent] at hend
  have hsize : (file.phdr i).vaddr.toNat + (file.phdr i).memsz.toNat - mmu.base.toNat ≤
      (file.image heaps mmu n).size.toNat := hend
  unfold Mmu.Holds
  rw [hbase]
  omega

theorem ElfFile.placed_succ_iff : file.Placed heaps mmu (n + 1) ↔
    file.Placed heaps mmu n ∧
      ((file.phdr n).Loads → mmu.base.toNat ≤ (file.phdr n).vaddr.toNat ∧
        (file.phdr n).Granted (heaps n) (file.image heaps mmu n)) := by
  constructor
  · intro h
    exact ⟨h.mono (Nat.le_succ n), h n (Nat.lt_succ_self n)⟩
  · intro h i hi
    rcases Nat.lt_or_eq_of_le (Nat.le_of_lt_succ hi) with hlt | rfl
    · exact h.1 i hlt
    · exact h.2

theorem ElfFile.WellFormed.phdr_le (hfile : file.WellFormed) (hn : n < file.phnum) :
    file.phoff + Elf32Phdr.size * n + Elf32Phdr.size ≤ file.size := by
  have htable := hfile.table
  have hmul : Elf32Phdr.size * (n + 1) ≤ Elf32Phdr.size * file.phnum :=
    Nat.mul_le_mul_left _ hn
  rw [Nat.mul_succ] at hmul
  omega

theorem elfLoadPhdr_eq (hfile : file.WellFormed) (hn : n < file.phnum) :
    elfLoadPhdr heap file (file.phoff + Elf32Phdr.size * n) mmu =
      if (file.phdr n).Loads then loadPhdr heap file (file.phdr n) mmu else .ok (true, mmu) := by
  have hin := hfile.phdr_le hn
  have htype : file.word (file.phoff + Elf32Phdr.size * n + Elf32Phdr.pType) =
      .ok (file.phdr n).type := by
    have hsize : Elf32Phdr.pType + 4 ≤ Elf32Phdr.size := by decide
    exact if_pos (by omega)
  unfold elfLoadPhdr
  rw [htype, Transition.ok_bind, elfLoadSegment_eq hin]
  rfl

/-- A turn of the loop. -/
theorem elfLoadPhdr_iff (hfile : file.WellFormed) (hsized : mmu.size.toNat < 2 ^ 63)
    (hn : n < file.phnum) (hplaced : file.Placed heaps mmu n) :
    elfLoadPhdr (heaps n) file (file.phoff + Elf32Phdr.size * n) (file.image heaps mmu n) =
        .ok (true, mmu') ↔
      file.Placed heaps mmu (n + 1) ∧ mmu' = file.image heaps mmu (n + 1) := by
  have hsize := hplaced.image_size hsized
  have hbase := (hplaced.image_layout hsized).1
  rw [elfLoadPhdr_eq hfile hn, ElfFile.placed_succ_iff]
  by_cases hloads : (file.phdr n).Loads
  · rw [if_pos hloads, file.image_succ_of_loads hloads]
    have hloaded : _ → (file.phdr n).Granted (heaps n) (file.image heaps mmu n) → _ :=
      loadPhdr_loaded (hfile.sizes n hn hloads) (hfile.contents n hn hloads) hsize
    constructor
    · intro h
      obtain ⟨hlow, hgranted⟩ := loadPhdr_granted h
      rw [hloaded hlow hgranted] at h
      cases h
      rw [hbase] at hlow
      exact ⟨⟨hplaced, fun _ => ⟨hlow, hgranted⟩⟩, rfl⟩
    · rintro ⟨⟨-, hgranted⟩, rfl⟩
      obtain ⟨hlow, hgranted⟩ := hgranted hloads
      rw [← hbase] at hlow
      exact hloaded hlow hgranted
  · rw [if_neg hloads, file.image_succ_of_not_loads hloads]
    constructor
    · intro h
      cases h
      exact ⟨⟨hplaced, fun h => absurd h hloads⟩, rfl⟩
    · rintro ⟨-, rfl⟩
      rfl

theorem elfLoadLoop_iff (hfile : file.WellFormed) (hsized : mmu.size.toNat < 2 ^ 63) {m : Nat}
    (hm : n + m ≤ file.phnum) (hplaced : file.Placed heaps mmu n) :
    elfLoadLoop heaps file file.phoff (List.range' n m) (file.image heaps mmu n) =
        .ok (true, mmu') ↔
      file.Placed heaps mmu (n + m) ∧ mmu' = file.image heaps mmu (n + m) := by
  induction m generalizing n with
  | zero =>
      constructor
      · intro h
        cases h
        exact ⟨hplaced, rfl⟩
      · rintro ⟨-, rfl⟩
        rfl
  | succ m ih =>
      have hturn := fun m' =>
        @elfLoadPhdr_iff file heaps mmu m' n hfile hsized (by omega) hplaced
      have hassoc : n + 1 + m = n + (m + 1) := by omega
      rw [List.range'_succ, elfLoadLoop]
      constructor
      · intro h
        obtain ⟨⟨loaded, m'⟩, hloaded, h⟩ := Transition.exists_of_bind_ok h
        cases loaded with
        | false => cases h
        | true =>
            obtain ⟨hplaced', rfl⟩ := (hturn m').mp hloaded
            rw [← hassoc]
            exact (ih (by omega) hplaced').mp h
      · rintro ⟨hplaced', rfl⟩
        have hnext := hplaced'.mono (show n + 1 ≤ n + (m + 1) by omega)
        rw [(hturn _).mpr ⟨hnext, rfl⟩, Transition.ok_bind]
        refine (ih (by omega) hnext).mpr ?_
        rw [hassoc]
        exact ⟨hplaced', rfl⟩

/-- `elf_load` succeeds exactly when every turn of its loop does. -/
theorem elfLoad_iff (hfile : file.WellFormed) (hsized : mmu.size.toNat < 2 ^ 63) {granted : Bool}
    {elf : Elf32} :
    elfLoad granted heaps file mmu = .ok (some elf, mmu') ↔
      granted = true ∧ file.Placed heaps mmu file.phnum ∧
        mmu' = file.image heaps mmu file.phnum ∧ elf = { entry := file.entry } := by
  have hheader := hfile.header
  have hword : ∀ k, k + 4 ≤ Elf32Ehdr.size → file.word k = .ok (file.wordAt k) :=
    fun k hk => if_pos (by omega)
  have huchar : ∀ k, k + 1 ≤ Elf32Ehdr.size → file.uchar k = .ok (file.byte k) :=
    fun k hk => if_pos (by omega)
  have hhalf : file.half Elf32Ehdr.ePhnum = .ok (file.halfAt Elf32Ehdr.ePhnum) := by
    have hsize : Elf32Ehdr.ePhnum + 2 ≤ Elf32Ehdr.size := by decide
    exact if_pos (by omega)
  have hloop := @elfLoadLoop_iff file heaps mmu mmu' 0 hfile hsized file.phnum (by omega)
    (fun i hi => absurd hi (Nat.not_lt_zero i))
  rw [Nat.zero_add, ← List.range_eq_range'] at hloop
  unfold elfLoad
  cases granted with
  | false =>
      constructor
      · intro h
        cases h
      · rintro ⟨h, -⟩
        cases h
  | true =>
      rw [Bool.not_true, if_neg Bool.false_ne_true, huchar _ (by decide), Transition.ok_bind,
        if_neg (fun hne => hne hfile.eiClass), huchar _ (by decide), Transition.ok_bind,
        if_neg (fun hne => hne hfile.eiData), hword _ (by decide), Transition.ok_bind, hhalf,
        Transition.ok_bind]
      constructor
      · intro h
        obtain ⟨⟨loaded, m'⟩, hloaded, h⟩ := Transition.exists_of_bind_ok h
        cases loaded with
        | false => cases h
        | true =>
            dsimp only at h
            rw [Bool.not_true, if_neg Bool.false_ne_true, hword _ (by decide)] at h
            cases h
            obtain ⟨hplaced, himage⟩ := hloop.mp hloaded
            exact ⟨rfl, hplaced, himage, rfl⟩
      · rintro ⟨-, hplaced, himage, rfl⟩
        have hloaded : elfLoadLoop heaps file (file.wordAt Elf32Ehdr.ePhoff).toNat
            (List.range (file.halfAt Elf32Ehdr.ePhnum).toNat) mmu = .ok (true, mmu') :=
          hloop.mpr ⟨hplaced, himage⟩
        rw [hloaded, Transition.ok_bind]
        dsimp only
        rw [Bool.not_true, if_neg Bool.false_ne_true, hword _ (by decide)]
        rfl

/-! ## Which loads succeed -/

/-- The segments lie inside the memory. -/
def ElfFile.Inside (file : ElfFile) (mmu : Mmu) : Prop :=
  ∀ i < file.phnum, (file.phdr i).Loads → mmu.Holds (file.phdr i).vaddr (file.phdr i).memsz.toNat

theorem Phdr.endOffset_le (h : mmu.Holds p.vaddr p.memsz.toNat) :
    p.endOffset mmu.base ≤ mmu.extent.size := by
  obtain ⟨hlow, hhigh⟩ := h
  show p.vaddr.toNat + p.memsz.toNat - mmu.base.toNat ≤ mmu.size.toNat
  omega

theorem ElfFile.Inside.extent_eq (hinside : file.Inside mmu) (hn : n ≤ file.phnum) :
    file.extent mmu n = mmu.extent := by
  induction n with
  | zero => rfl
  | succ n ih =>
      unfold ElfFile.extent
      rw [ih (by omega)]
      by_cases hloads : (file.phdr n).Loads
      · have hreach := Phdr.endOffset_le (hinside n hn hloads)
        rw [if_pos hloads, Extent.reach, if_neg (Nat.not_lt.mpr hreach)]
      · rw [if_neg hloads]

/-- A segment that the sizes reach needs no block. -/
theorem ElfFile.not_extends (hsized : mmu.size.toNat < 2 ^ 63) (hplaced : file.Placed heaps mmu n)
    (hreach : (file.phdr n).endOffset mmu.base ≤ (file.extent mmu n).size) :
    ¬ (file.image heaps mmu n).Extends (file.phdr n).vaddr (wide (file.phdr n).memsz) := by
  obtain ⟨hbase, hextent⟩ := hplaced.image_layout hsized
  rw [Phdr.extends_iff (hplaced.image_size hsized), hbase, Nat.not_lt]
  rwa [← hextent] at hreach

theorem ElfFile.Inside.placed (hinside : file.Inside mmu) (hsized : mmu.size.toNat < 2 ^ 63)
    (hn : n ≤ file.phnum) : file.Placed heaps mmu n := by
  induction n with
  | zero => exact fun i hi => absurd hi (Nat.not_lt_zero i)
  | succ n ih =>
      have hplaced := ih (by omega)
      refine ElfFile.placed_succ_iff.mpr ⟨hplaced, fun hloads => ?_⟩
      have hholds := hinside n hn hloads
      refine ⟨hholds.1, fun hextends => absurd hextends (ElfFile.not_extends hsized hplaced ?_)⟩
      rw [hinside.extent_eq (by omega)]
      exact Phdr.endOffset_le hholds

/-- The host grants every block that it may. -/
def Heap.Generous (heap : Heap) : Prop := ∀ b n, n.toNat < 2 ^ 63 → heap.grants b n = true

theorem Heap.Generous.grantsAll {size : Size} (h : heap.Generous) (hsize : size.toNat < 2 ^ 63) :
    heap.GrantsAll size := ⟨h _ _ hsize, h _ _ hsize, h _ _ hsize⟩

theorem ElfFile.StartsAt.placed (hstarts : file.StartsAt mmu.base)
    (hsized : mmu.size.toNat < 2 ^ 63) (hheaps : ∀ i, (heaps i).Generous) (hn : n ≤ file.phnum) :
    file.Placed heaps mmu n := by
  induction n with
  | zero => exact fun i hi => absurd hi (Nat.not_lt_zero i)
  | succ n ih =>
      have hplaced := ih (by omega)
      refine ElfFile.placed_succ_iff.mpr ⟨hplaced, fun hloads => ?_⟩
      have hlow := hstarts n hn hloads
      refine ⟨hlow, fun _ => (hheaps n).grantsAll ?_⟩
      have hend := (file.phdr n).endOffset_lt mmu.base
      have hbase := (hplaced.image_layout hsized).1
      rw [Phdr.extendedSize_toNat (by rwa [hbase]), hbase]
      omega

/-! ## Facts that the loop settles -/

section Turn

variable {b : Vaddr} {a : Nat} (hb : mmu.base = b) (hgranted : p.Granted heap mmu)
  (hbase : b.toNat ≤ p.vaddr.toNat)

include hb hgranted hbase

theorem Mmu.loaded_data_of_mem (ha : a ∈ p.fileBytes) :
    (mmu.loaded heap file p).data (a - b.toNat) =
      file.byte (p.offset.toNat + (a - p.vaddr.toNat)) := by
  rw [← hb, ← Mmu.grown_base hgranted] at hbase ⊢
  exact Mmu.stored_data_of_mem hbase ha

theorem Mmu.loaded_data_of_not_mem (hlow : b.toNat ≤ a) (ha : a ∉ p.fileBytes) :
    (mmu.loaded heap file p).data (a - b.toNat) =
      (mmu.grown heap p.vaddr (wide p.memsz)).data (a - b.toNat) := by
  rw [← hb, ← Mmu.grown_base hgranted] at hbase hlow ⊢
  exact Mmu.stored_data_of_not_mem hbase hlow ha

theorem Mmu.loaded_perm_of_mem (ha : a ∈ p.fileBytes) :
    (mmu.loaded heap file p).perm (a - b.toNat) = segmentPerm p.flags := by
  rw [← hb, ← Mmu.grown_base hgranted] at hbase ⊢
  exact Mmu.stored_perm_of_mem hbase ha

theorem Mmu.loaded_perm_of_tail (ha : a ∈ p.tail) :
    (mmu.loaded heap file p).perm (a - b.toNat) = mpermWrite ||| mpermRaw := by
  rw [← hb, ← Mmu.grown_base hgranted] at hbase ⊢
  exact Mmu.stored_perm_of_tail hbase ha

theorem Mmu.loaded_perm_of_not_mem (hsizes : p.filesz.toNat ≤ p.memsz.toNat)
    (hlow : b.toNat ≤ a) (ha : a ∉ p.memory) :
    (mmu.loaded heap file p).perm (a - b.toNat) =
      (mmu.grown heap p.vaddr (wide p.memsz)).perm (a - b.toNat) := by
  rw [← hb, ← Mmu.grown_base hgranted] at hbase hlow ⊢
  exact Mmu.stored_perm_of_not_mem hbase hsizes hlow ha

end Turn

/-- What turn `i` establishes and no later turn changes holds behind the loop. -/
theorem ElfFile.image_settled {Q : Mmu → Prop} {i : Nat} (hi : i < n) (hloads : (file.phdr i).Loads)
    (hset : Q ((file.image heaps mmu i).loaded (heaps i) file (file.phdr i)))
    (hkeep : ∀ j, i < j → j < n → (file.phdr j).Loads → Q (file.image heaps mmu j) →
      Q ((file.image heaps mmu j).loaded (heaps j) file (file.phdr j))) :
    Q (file.image heaps mmu n) := by
  induction n with
  | zero => omega
  | succ n ih =>
      rcases Nat.lt_or_eq_of_le (Nat.le_of_lt_succ hi) with hlt | rfl
      · have hprev := ih hlt fun j hij hjn => hkeep j hij (by omega)
        by_cases hn : (file.phdr n).Loads
        · rw [file.image_succ_of_loads hn]
          exact hkeep n hlt (Nat.lt_succ_self n) hn hprev
        · rwa [file.image_succ_of_not_loads hn]
      · rwa [file.image_succ_of_loads hloads]

/-- An address of one segment is in no other. -/
theorem ElfFile.Apart.not_mem (hapart : file.Apart) {i j a : Nat} (hi : i < file.phnum)
    (hj : j < file.phnum) (hne : i ≠ j) (hloads : (file.phdr i).Loads)
    (hloads' : (file.phdr j).Loads) (ha : a ∈ (file.phdr i).memory) :
    a ∉ (file.phdr j).memory :=
  Set.disjoint_left.mp (hapart i hi j hj hne hloads hloads') ha

end Loop

end CRiscV
