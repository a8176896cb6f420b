/-
Malformed files: what the loader touches of a file and of the memory, and for which files
it keeps to the file, to the memory of their segments and to the blocks behind the memory,
or else gives up.
-/
import CRiscV.Bus.Run
import CRiscV.Emulator.Accesses
import CRiscV.Refinement.Blocks
import CRiscV.Refinement.Load

namespace CRiscV

open Transition (Logged Returns returns_ok of_ite_ok of_ite_error exists_of_bind_ok)

/-! ## What the loader may touch -/

/-- The entry of a segment that can be loaded to memory from `b` on: its bytes are in the
file and fit the memory of the segment. -/
structure Phdr.Loadable (p : Phdr) (file : ElfFile) (b : Vaddr) : Prop where
  low : b.toNat ≤ p.vaddr.toNat
  sizes : p.filesz.toNat ≤ p.memsz.toNat
  contents : p.filesz.toNat = 0 ∨ p.offset.toNat + p.filesz.toNat ≤ file.size

/-- The header, the table and the segments are in the file, and no segment is larger there
than in memory or starts below `b`. -/
structure ElfFile.Sound (file : ElfFile) (b : Vaddr) : Prop where
  header : Elf32Ehdr.size ≤ file.size
  table : ∀ i < file.phnum, file.phoff + Elf32Phdr.size * i + Elf32Phdr.size ≤ file.size
  segments : ∀ i < file.phnum, (file.phdr i).Loads → (file.phdr i).Loadable file b

/-- The parts of a file that a loader has to read. -/
inductive ElfFile.Part (file : ElfFile) (off n : Nat) : Prop
  | header (hend : off + n ≤ Elf32Ehdr.size)
  | phdr {i : Nat} (hi : i < file.phnum) (hlow : file.phoff + Elf32Phdr.size * i ≤ off)
      (hend : off + n ≤ file.phoff + Elf32Phdr.size * i + Elf32Phdr.size)
  | contents {i : Nat} (hi : i < file.phnum) (hloads : (file.phdr i).Loads)
      (hlow : (file.phdr i).offset.toNat ≤ off)
      (hend : off + n ≤ (file.phdr i).offset.toNat + (file.phdr i).filesz.toNat)

/-- A read is inside the file and of one of these parts, a write is to the memory of the
segment that is loaded, and the entries of an array are in its block. -/
def LoaderAccess.Allowed (file : ElfFile) : LoaderAccess → Prop
  | .read off n => (n = 0 ∨ off + n ≤ file.size) ∧ file.Part off n
  | .write phdr vaddr n =>
      ∃ i < file.phnum, phdr = file.phoff + Elf32Phdr.size * i ∧ (file.phdr i).Loads ∧
        Set.Ico vaddr (vaddr + n) ⊆ (file.phdr i).memory
  | .array block width lo hi => lo < hi → width * hi ≤ block.toNat

/-- `elf_load` touches nothing else, keeps the memory outside the segments, and gives the null
pointer for a file with which that can not be. -/
structure ElfFile.Guarded (file : ElfFile) (granted : Bool) (heaps : Nat → Heap) (mmu : Mmu) :
    Prop where
  accesses : (elfLoadLogged granted heaps file mmu).All (LoaderAccess.Allowed file)
  frame : ∀ r mmu', elfLoad granted heaps file mmu = .ok (r, mmu') →
    ∀ a, mmu.base.toNat ≤ a → a - mmu.base.toNat < mmu.size.toNat →
      (∀ i < file.phnum, (file.phdr i).Loads → a ∉ (file.phdr i).memory) →
      mmu'.data (a - mmu.base.toNat) = mmu.data (a - mmu.base.toNat)
  rejects : ¬ file.Sound mmu.base → ∃ mmu', elfLoad granted heaps file mmu = .ok (none, mmu')

/-! ## The entries of the arrays -/

/-- The permissions of a segment's memory are in the block that is there.  A block that is
allocated for the segment has a fourth of the entries that its memory needs. -/
def Extent.Fits (e : Extent) (p : Phdr) (base : Vaddr) : Prop :=
  p.memsz ≠ 0 → p.endOffset base ≤ e.size ∧ sizeofPerm.toNat * p.endOffset base ≤ e.permBlock

/-- Header `i` finds the block of permissions large enough for its segment. -/
def ElfFile.Fits (file : ElfFile) (mmu : Mmu) (i : Nat) : Prop :=
  (file.phdr i).Loads → (file.extent mmu i).Fits (file.phdr i) mmu.base

/-- The bytes and the pages of the memory are in their blocks. -/
structure Mmu.Backed (mmu : Mmu) : Prop where
  data : mmu.size.toNat ≤ mmu.dataBlock.toNat
  dirty : mmu.size.toNat / dirtyPageSize.toNat ≤ mmu.dirtyBlock.toNat

section Entries

variable {file : ElfFile} {heap : Heap} {mmu mmu' : Mmu} {p : Phdr} {vaddr : Vaddr} {n : Size}

theorem Mmu.Covers.backed (h : mmu.Covers) : mmu.Backed :=
  ⟨h.data, Nat.le_of_succ_le h.dirty⟩

theorem Mmu.IndexesInside.layout (h : mmu.IndexesInside vaddr n) (hlayout : mmu.SameLayout mmu') :
    mmu'.IndexesInside vaddr n := by
  obtain ⟨data, perm, dirty, state, rfl⟩ := hlayout
  exact ⟨h.data, h.perm, h.dirty⟩

/-- The last entry of the range is in the block of permissions, and the others are too. -/
theorem Mmu.IndexesInside.perm_le (h : mmu.IndexesInside vaddr n)
    (hlt : (mmu.offset vaddr).toNat < (mmu.offsetEnd vaddr n).toNat) :
    sizeofPerm.toNat * (mmu.offsetEnd vaddr n).toNat ≤ mmu.permBlock.toNat := by
  have hlast := h.perm ((mmu.offsetEnd vaddr n).toNat - 1) (by omega) (by omega)
  rwa [Nat.sub_add_cancel (by omega)] at hlast

theorem Mmu.IndexesInside.permAccess (h : mmu.IndexesInside vaddr n) :
    LoaderAccess.Allowed file (mmu.permAccess vaddr n) := h.perm_le

theorem Mmu.IndexesInside.setperm (h : mmu.IndexesInside vaddr n) (perm : Perm) :
    (mmuSetpermLogged mmu vaddr n perm).All (LoaderAccess.Allowed file) :=
  mmuSetpermLogged_all.mpr fun _ _ => h.permAccess

theorem Mmu.IndexesInside.touchWritten (h : mmu.IndexesInside vaddr n) :
    (mmu.touchWritten vaddr n).All (LoaderAccess.Allowed file) := by
  have htested := @Span.tested_le Perm (mmu.offset vaddr).toNat (mmu.offsetEnd vaddr n).toNat
    mmu.perm (permAllows mpermWrite)
  unfold Mmu.touchWritten
  cases mmu.outside vaddr n with
  | true => exact Logged.all_pure _
  | false =>
      refine (Logged.all_bind_of_ok rfl).mpr ⟨Logged.all_entry.mpr fun hlt => ?_, ?_⟩
      · have hperm := h.perm_le (by omega)
        exact Nat.le_trans (Nat.mul_le_mul_left _ (by omega)) hperm
      cases mmuCheckAccess mmu vaddr n mpermWrite with
      | false => exact Logged.all_pure _
      | true =>
          refine (Logged.all_bind_of_ok rfl).mpr ⟨Logged.all_entry.mpr fun hlt => ?_, ?_⟩
          · have hdata := h.data (n.toNat - 1) (by omega)
            omega
          refine (Logged.all_bind_of_ok rfl).mpr ⟨Logged.all_entry.mpr h.perm_le, ?_⟩
          refine Logged.all_entry.mpr fun hlt => ?_
          have hdirty := h.dirty ((mmu.offsetEnd vaddr n / dirtyPageSize).toNat - 1) (by omega)
            (by omega)
          omega

theorem Mmu.IndexesInside.writeFrom (h : mmu.IndexesInside vaddr n) (src : Nat → BitVec 8) :
    (mmuWriteFromLogged mmu src vaddr n).All (LoaderAccess.Allowed file) :=
  (Logged.all_bind_of_ok Mmu.touchWritten_result).mpr ⟨h.touchWritten, Logged.all_lift _⟩

/-- The entries of a part of the segment, in the memory that was added for it. -/
theorem Extent.Fits.indexesInside (hfits : mmu.extent.Fits p mmu.base) (hbacked : mmu.Backed)
    (hsized : mmu.size.toNat < 2 ^ 63) (hlow : mmu.base.toNat ≤ p.vaddr.toNat)
    (hgranted : p.Granted heap mmu) {k : Word} (hk : k.toNat ≤ p.memsz.toNat) :
    (mmu.grown heap p.vaddr (wide p.memsz)).IndexesInside p.vaddr (wide k) := by
  have hlow' : (mmu.grown heap p.vaddr (wide p.memsz)).base.toNat ≤ p.vaddr.toNat := by
    rwa [Mmu.grown_base hgranted]
  have hlo := Mmu.offset_toNat hlow'
  have hhi := @Mmu.offsetEnd_word _ p.vaddr k hlow'
  by_cases hempty : p.memsz = 0
  · have hzero : k.toNat = 0 := by
      rw [hempty] at hk
      exact Nat.le_zero.mp hk
    rw [hzero, Nat.add_zero, ← hlo] at hhi
    refine ⟨fun i hi => ?_, fun i hle hlt => ?_, fun i hle hlt => ?_⟩
    · rw [wide_toNat] at hi
      omega
    · omega
    · rw [BitVec.toNat_udiv] at hle hlt
      rw [hhi] at hlt
      omega
  · obtain ⟨hend, hperm⟩ := hfits hempty
    have hinside : ¬ mmu.Extends p.vaddr (wide p.memsz) := by
      rw [Phdr.extends_iff hsized]
      exact Nat.not_lt.mpr hend
    have hfour : sizeofPerm.toNat = 4 := rfl
    have hpage : dirtyPageSize.toNat = 64 := rfl
    obtain ⟨hdata, hdirty⟩ := hbacked
    have hsize : mmu.extent.size = mmu.size.toNat := rfl
    have hblock : mmu.extent.permBlock = mmu.permBlock.toNat := rfl
    unfold Phdr.endOffset at hend hperm
    rw [hsize] at hend
    rw [hfour, hblock] at hperm
    rw [hpage] at hdirty
    rw [Mmu.grown_inside hinside] at hlo hhi ⊢
    dsimp only at hlo hhi
    have hpages : (p.vaddr.toNat - mmu.base.toNat + k.toNat) / 64 ≤ mmu.dirtyBlock.toNat := by
      omega
    refine ⟨fun i hi => ?_, fun i hle hlt => ?_, fun i hle hlt => ?_⟩
    · rw [wide_toNat] at hi
      rw [hlo]
      show p.vaddr.toNat - mmu.base.toNat + i < mmu.dataBlock.toNat
      omega
    · rw [hhi] at hlt
      show sizeofPerm.toNat * (i + 1) ≤ mmu.permBlock.toNat
      rw [hfour]
      omega
    · rw [BitVec.toNat_udiv, hhi, hpage] at hlt
      exact Nat.lt_of_lt_of_le hlt hpages

/-- The permissions that `mmu_add_memory` writes are in their block only if those of the
segment fit. -/
theorem Extent.fits_of_allowed (hsized : mmu.size.toNat < 2 ^ 63)
    (hlow : mmu.base.toNat ≤ p.vaddr.toNat) (hgranted : p.Granted heap mmu)
    (h : LoaderAccess.Allowed file
      ((mmu.grown heap p.vaddr (wide p.memsz)).permAccess p.vaddr (wide p.memsz))) :
    mmu.extent.Fits p mmu.base := by
  intro hmemsz
  have hbase := Mmu.grown_base hgranted
  have hlow' : (mmu.grown heap p.vaddr (wide p.memsz)).base.toNat ≤ p.vaddr.toNat := by
    rwa [hbase]
  have hpos : 0 < p.memsz.toNat := Nat.pos_of_ne_zero fun hzero => hmemsz (BitVec.eq_of_toNat_eq hzero)
  have hblock : (mmu.grown heap p.vaddr (wide p.memsz)).permBlock.toNat =
      (mmu.extent.reach (p.endOffset mmu.base)).permBlock :=
    congrArg Extent.permBlock (@Mmu.loaded_extent file heap mmu p hsized hlow hgranted)
  have hlo := Mmu.offset_toNat hlow'
  have hhi := @Mmu.offsetEnd_word _ p.vaddr p.memsz hlow'
  have hentries := h (by omega)
  have hend : p.vaddr.toNat - mmu.base.toNat + p.memsz.toNat = p.endOffset mmu.base := by
    unfold Phdr.endOffset
    omega
  rw [hhi, hbase, hend, hblock] at hentries
  have hfour : sizeofPerm.toNat = 4 := rfl
  unfold Extent.reach at hentries
  by_cases hextends : mmu.extent.size < p.endOffset mmu.base
  · rw [if_pos hextends, hfour] at hentries
    dsimp only at hentries
    omega
  · rw [if_neg hextends] at hentries
    exact ⟨Nat.le_of_not_lt hextends, hentries⟩

theorem Mmu.grown_backed (hbacked : mmu.Backed) (hgranted : p.Granted heap mmu) :
    (mmu.grown heap p.vaddr (wide p.memsz)).Backed := by
  unfold Mmu.grown
  by_cases hextends : mmu.Extends p.vaddr (wide p.memsz)
  · rw [if_pos hextends, mmuExtend_granted (hgranted hextends)]
    exact ⟨Nat.le_refl _, Nat.div_le_self _ _⟩
  · rw [if_neg hextends]
    exact ⟨hbacked.data, hbacked.dirty⟩

theorem ElfFile.Placed.image_backed {heaps : Nat → Heap} {m : Nat}
    (hplaced : file.Placed heaps mmu m) (hbacked : mmu.Backed) :
    (file.image heaps mmu m).Backed := by
  induction m with
  | zero => exact hbacked
  | succ m ih =>
      have hprev := ih (hplaced.mono (Nat.le_succ m))
      by_cases hloads : (file.phdr m).Loads
      · rw [file.image_succ_of_loads hloads]
        obtain ⟨hdata, hdirty⟩ :=
          Mmu.grown_backed hprev (hplaced m (Nat.lt_succ_self m) hloads).2
        exact ⟨hdata, hdirty⟩
      · rwa [file.image_succ_of_not_loads hloads]

end Entries

/-! ## One header -/

/-- What a turn that goes on to the next header has found. -/
structure ElfFile.Passes (file : ElfFile) (heap : Heap) (mmu : Mmu) (i : Nat) : Prop where
  type : file.phoff + Elf32Phdr.size * i + Elf32Phdr.pType + 4 ≤ file.size
  flags : (file.phdr i).Loads →
    file.phoff + Elf32Phdr.size * i + Elf32Phdr.pFlags + 4 ≤ file.size
  loadable : (file.phdr i).Loads → (file.phdr i).Loadable file mmu.base
  granted : (file.phdr i).Loads → (file.phdr i).Granted heap mmu

/-- What a turn that ends the loop has found. -/
structure ElfFile.Ends (file : ElfFile) (heap : Heap) (mmu : Mmu) (i : Nat) : Prop where
  memsz : file.phoff + Elf32Phdr.size * i + Elf32Phdr.pMemsz + 4 ≤ file.size
  loads : (file.phdr i).Loads
  low : mmu.base.toNat ≤ (file.phdr i).vaddr.toNat
  refused : ¬ (file.phdr i).Granted heap mmu

/-- What a turn has found by whether it goes on: then the permissions of its segment fit their
block, too. -/
def ElfFile.Finds (file : ElfFile) (heap : Heap) (mmu : Mmu) (i : Nat) (passed : Bool) : Prop :=
  if passed then
    file.Passes heap mmu i ∧ ((file.phdr i).Loads → mmu.extent.Fits (file.phdr i) mmu.base)
  else file.Ends heap mmu i

section Header

variable {file : ElfFile} {heap : Heap} {mmu mmu' : Mmu} {i : Nat}

theorem ElfFile.word_ok {off : Nat} (h : off + 4 ≤ file.size) :
    file.word off = .ok (file.wordAt off) := if_pos h

theorem ElfFile.readWord_vouches {P : LoaderAccess → Prop} (off : Nat) :
    (file.readWord off).Vouches P fun w => w = file.wordAt off ∧ off + 4 ≤ file.size := by
  refine Logged.vouches_entry fun _ w hw => ?_
  obtain ⟨hin, heq⟩ := of_ite_ok hw
  exact ⟨heq.symm, hin⟩

theorem ElfFile.type_eq_one_iff :
    file.wordAt (file.phoff + Elf32Phdr.size * i + Elf32Phdr.pType) = 1 ↔ (file.phdr i).Loads :=
  Iff.rfl

/-- A field of a header in the table. -/
theorem ElfFile.readField_all (hi : i < file.phnum) {k : Nat} (hk : k + 4 ≤ Elf32Phdr.size)
    (hin : file.phoff + Elf32Phdr.size * i + k + 4 ≤ file.size) :
    (file.readWord (file.phoff + Elf32Phdr.size * i + k)).All (LoaderAccess.Allowed file) :=
  Logged.all_entry.mpr ⟨Or.inr hin, .phdr hi (by omega) (by omega)⟩

/-- A write that is allowed for a header is no longer than its segment. -/
theorem LoaderAccess.Allowed.le_memsz {n : Nat}
    (h : LoaderAccess.Allowed file
      (.write (file.phoff + Elf32Phdr.size * i) (file.phdr i).vaddr.toNat n)) :
    n ≤ (file.phdr i).memsz.toNat := by
  obtain ⟨j, -, hphdr, -, hsubset⟩ := h
  have hsize : Elf32Phdr.size = 32 := rfl
  rw [hsize] at hphdr
  have hij : i = j := by omega
  rw [← hij] at hsubset
  by_contra hlong
  have hlast : (file.phdr i).vaddr.toNat + (n - 1) ∈ (file.phdr i).memory :=
    hsubset ⟨by omega, by omega⟩
  have hend := hlast.2
  omega

/-- A write of no more than the segment is allowed. -/
theorem LoaderAccess.allowed_write (hi : i < file.phnum) (hloads : (file.phdr i).Loads) {n : Nat}
    (hn : n ≤ (file.phdr i).memsz.toNat) :
    LoaderAccess.Allowed file
      (.write (file.phoff + Elf32Phdr.size * i) (file.phdr i).vaddr.toNat n) := by
  refine ⟨i, hi, rfl, hloads, ?_⟩
  exact Set.Ico_subset_Ico_right (by omega)

/-- Memory is added exactly when the host has the blocks, and is then the grown memory with
new permissions. -/
theorem mmuAddMemory_returns (p : Phdr) (perm : Perm) :
    Returns
      (fun x => mmu.base.toNat ≤ p.vaddr.toNat ∧
        if x.1 then p.Granted heap mmu ∧
          mmuSetperm (mmu.grown heap p.vaddr (wide p.memsz)) p.vaddr (wide p.memsz) perm = .ok x.2
        else ¬ p.Granted heap mmu)
      (mmuAddMemory heap mmu p.vaddr (wide p.memsz) perm) := by
  rintro ⟨added, m⟩ h
  have hlow := (of_ite_error h).1
  refine ⟨Nat.le_of_not_lt hlow, ?_⟩
  cases added with
  | false =>
      cases mmuAddMemory_cases h with
      | refused hextends hrefused => exact fun hgranted => hrefused (hgranted hextends)
  | true =>
      have hgranted : p.Granted heap mmu := (mmuAddMemory_added h).2
      rw [mmuAddMemory_grown hlow hgranted] at h
      obtain ⟨m', hm', h⟩ := exists_of_bind_ok h
      cases h
      exact ⟨hgranted, hm'⟩

/-- The log of a call that adds memory vouches for the block of permissions. -/
theorem mmuAddMemoryLogged_vouches (hsized : mmu.size.toNat < 2 ^ 63) (p : Phdr) (perm : Perm) :
    (mmuAddMemoryLogged heap mmu p.vaddr (wide p.memsz) perm).Vouches (LoaderAccess.Allowed file)
      fun x => mmu.base.toNat ≤ p.vaddr.toNat ∧
        if x.1 then p.Granted heap mmu ∧ mmu.extent.Fits p mmu.base ∧
          mmuSetperm (mmu.grown heap p.vaddr (wide p.memsz)) p.vaddr (wide p.memsz) perm = .ok x.2
        else ¬ p.Granted heap mmu := by
  rintro hall ⟨added, m⟩ h
  rw [mmuAddMemoryLogged_result] at h
  obtain ⟨hlow, hadded⟩ := mmuAddMemory_returns p perm _ h
  refine ⟨hlow, ?_⟩
  cases added with
  | false => exact hadded
  | true =>
      obtain ⟨hgranted, hset⟩ := hadded
      exact ⟨hgranted, Extent.fits_of_allowed hsized hlow hgranted
        (mmuAddMemoryLogged_all.mp hall m h), hset⟩

theorem ElfFile.copied_returns (file : ElfFile) (off count : Nat) :
    Returns (fun _ => count = 0 ∨ off + count ≤ file.size) (file.copied off count) := by
  intro u h
  exact (of_ite_ok h).1

/-- In memory that holds the segment all of its bytes from the file are written. -/
theorem mmuWriteFrom_returns {p : Phdr} {m : Mmu} (hsized : mmu.size.toNat < 2 ^ 63)
    (hlow : mmu.base.toNat ≤ p.vaddr.toNat) (hgranted : p.Granted heap mmu)
    (hraw : mmuSetperm (mmu.grown heap p.vaddr (wide p.memsz)) p.vaddr (wide p.memsz)
      (mpermWrite ||| mpermRaw) = .ok m) (src : Nat → BitVec 8) :
    Returns (fun x => p.filesz.toNat ≤ p.memsz.toNat → x.1 = wide p.filesz)
      (mmuWriteFrom m src p.vaddr (wide p.filesz)) := by
  intro x hx hsizes
  have hmemsz := wide_lt p.memsz
  have hvaddr := p.vaddr.isLt
  have hsize := Mmu.grown_size hlow hsized hmemsz hgranted
  have hholds := Mmu.grown_holds hlow hsized hmemsz hgranted
  rw [wide_toNat] at hholds
  obtain ⟨raw, written, hset, hwrite, -⟩ := segment_stored (by omega) hholds hsizes src
  cases hraw.symm.trans hset
  cases hwrite.symm.trans hx
  rfl

/-- What a segment that lets the loader go on has found, and what one that does not. -/
theorem elfLoadSegmentLogged_vouches (hloads : (file.phdr i).Loads)
    (hsized : mmu.size.toNat < 2 ^ 63)
    (htype : file.phoff + Elf32Phdr.size * i + Elf32Phdr.pType + 4 ≤ file.size) :
    (elfLoadSegmentLogged heap file (file.phoff + Elf32Phdr.size * i) mmu).Vouches
      (LoaderAccess.Allowed file) fun x => file.Finds heap mmu i x.1 := by
  refine Logged.vouches_bind (file.readWord_vouches _) ?_
  rintro _ ⟨rfl, -⟩
  refine Logged.vouches_bind (file.readWord_vouches _) ?_
  rintro _ ⟨rfl, hmemsz⟩
  refine Logged.vouches_bind
    (mmuAddMemoryLogged_vouches hsized (file.phdr i) (mpermWrite ||| mpermRaw)) ?_
  rintro ⟨added, m⟩ ⟨hlow, hadded⟩
  cases added with
  | false => exact Logged.vouches_pure ⟨hmemsz, hloads, hlow, hadded⟩
  | true =>
      obtain ⟨hgranted, hfits, hraw⟩ := hadded
      refine Logged.vouches_bind (Logged.vouches_any _) fun _ _ => ?_
      refine Logged.vouches_bind (file.readWord_vouches _) ?_
      rintro _ ⟨rfl, -⟩
      refine Logged.vouches_bind (file.readWord_vouches _) ?_
      rintro _ ⟨rfl, -⟩
      have hwrite := mmuWriteFrom_returns hsized hlow hgranted hraw
        fun k => file.byte ((file.phdr i).offset.toNat + k)
      refine Logged.vouches_bind
        (Logged.vouches_result (mmuWriteFromLogged_result ▸ hwrite)) ?_
      rintro ⟨count, w⟩ hcount
      refine Logged.vouches_bind
        (Logged.vouches_entry fun _ => file.copied_returns _ _) fun _ hcopied => ?_
      refine Logged.vouches_bind (Logged.vouches_any _) fun _ _ => ?_
      refine Logged.vouches_bind (file.readWord_vouches _) ?_
      rintro _ ⟨rfl, hflags⟩
      refine Logged.vouches_bind (Logged.vouches_any _) fun _ _ => ?_
      have hlong : (writing (file.phoff + Elf32Phdr.size * i) (file.phdr i).vaddr.toNat
          (file.phdr i).filesz.toNat).Vouches (LoaderAccess.Allowed file)
          fun _ => (file.phdr i).filesz.toNat ≤ (file.phdr i).memsz.toNat :=
        Logged.vouches_entry fun hallowed => returns_ok hallowed.le_memsz
      refine Logged.vouches_bind hlong fun _ hsizes => ?_
      dsimp only at hcount
      rw [hcount hsizes, wide_toNat] at hcopied
      exact Logged.vouches_pure
        ⟨⟨htype, fun _ => hflags, fun _ => ⟨hlow, hsizes, hcopied⟩, fun _ => hgranted⟩,
          fun _ => hfits⟩

theorem elfLoadPhdrLogged_vouches (hsized : mmu.size.toNat < 2 ^ 63) :
    (elfLoadPhdrLogged heap file (file.phoff + Elf32Phdr.size * i) mmu).Vouches
      (LoaderAccess.Allowed file) fun x => file.Finds heap mmu i x.1 := by
  refine Logged.vouches_bind (file.readWord_vouches _) ?_
  rintro _ ⟨rfl, htype⟩
  by_cases hloads : (file.phdr i).Loads
  · rw [if_pos (ElfFile.type_eq_one_iff.mpr hloads)]
    exact elfLoadSegmentLogged_vouches hloads hsized htype
  · rw [if_neg (mt ElfFile.type_eq_one_iff.mp hloads)]
    have hvacuous : ∀ {Q : Prop}, (file.phdr i).Loads → Q := fun h => absurd h hloads
    exact Logged.vouches_pure ⟨⟨htype, hvacuous, hvacuous, hvacuous⟩, hvacuous⟩

/-- A segment is loaded without a forbidden access when the host refuses its memory, and when
it is loadable and its permissions fit their block. -/
theorem elfLoadSegmentLogged_all (hi : i < file.phnum) (hloads : (file.phdr i).Loads)
    (hsized : mmu.size.toNat < 2 ^ 63) (hbacked : mmu.Backed)
    (hmemsz : file.phoff + Elf32Phdr.size * i + Elf32Phdr.pMemsz + 4 ≤ file.size)
    (hrest : (file.phdr i).Granted heap mmu → (file.phdr i).Loadable file mmu.base ∧
      file.phoff + Elf32Phdr.size * i + Elf32Phdr.pFlags + 4 ≤ file.size ∧
      mmu.extent.Fits (file.phdr i) mmu.base) :
    (elfLoadSegmentLogged heap file (file.phoff + Elf32Phdr.size * i) mmu).All
      (LoaderAccess.Allowed file) := by
  have hfield : ∀ {k : Nat} {α : Type} {f : Word → Loading α}, k + 4 ≤ Elf32Phdr.size →
      file.phoff + Elf32Phdr.size * i + k + 4 ≤ file.size →
      (f (file.wordAt (file.phoff + Elf32Phdr.size * i + k))).All (LoaderAccess.Allowed file) →
      (file.readWord (file.phoff + Elf32Phdr.size * i + k) >>= f).All
        (LoaderAccess.Allowed file) := by
    intro k α f hk hin hf
    exact (Logged.all_bind_of_ok (file.word_ok hin)).mpr ⟨file.readField_all hi hk hin, hf⟩
  have hle : ∀ {k k' : Nat}, k ≤ k' → file.phoff + Elf32Phdr.size * i + k' + 4 ≤ file.size →
      file.phoff + Elf32Phdr.size * i + k + 4 ≤ file.size := by
    intro k k' hk hin
    omega
  refine hfield (by decide) (hle (by decide) hmemsz) ?_
  refine hfield (by decide) hmemsz ?_
  have hpermissions : (mmuAddMemoryLogged heap mmu (file.phdr i).vaddr (wide (file.phdr i).memsz)
      (mpermWrite ||| mpermRaw)).All (LoaderAccess.Allowed file) := by
    refine mmuAddMemoryLogged_all.mpr fun m h => ?_
    obtain ⟨hlow, hgranted, -⟩ := mmuAddMemory_returns (file.phdr i) _ _ h
    have hfits := (hrest hgranted).2.2
    exact (hfits.indexesInside hbacked hsized hlow hgranted (Nat.le_refl _)).permAccess
  refine Logged.all_bind.mpr ⟨hpermissions, ?_⟩
  rintro ⟨added, m⟩ hadd
  rw [mmuAddMemoryLogged_result] at hadd
  obtain ⟨hlow, hadded⟩ := mmuAddMemory_returns (file.phdr i) _ _ hadd
  cases added with
  | false => exact Logged.all_pure _
  | true =>
      obtain ⟨hgranted, hraw⟩ := hadded
      obtain ⟨hloadable, hflags, hfits⟩ := hrest hgranted
      have hentries := (hfits.indexesInside hbacked hsized hlow hgranted hloadable.sizes).layout
        (mmuSetperm_layout hraw)
      have hwrite : ∀ {n : Nat}, n ≤ (file.phdr i).memsz.toNat →
          (writing (file.phoff + Elf32Phdr.size * i) (file.phdr i).vaddr.toNat n).All
            (LoaderAccess.Allowed file) :=
        fun hn => Logged.all_entry.mpr (LoaderAccess.allowed_write hi hloads hn)
      refine Logged.all_bind.mpr ⟨hwrite (Nat.le_refl _), fun _ _ => ?_⟩
      refine hfield (by decide) (hle (by decide) hflags) ?_
      refine hfield (by decide) (hle (by decide) hflags) ?_
      refine Logged.all_bind.mpr ⟨hentries.writeFrom _, ?_⟩
      rintro ⟨count, w⟩ hcopy
      rw [mmuWriteFromLogged_result] at hcopy
      have hcount : count = wide (file.phdr i).filesz :=
        mmuWriteFrom_returns hsized hlow hgranted hraw _ _ hcopy hloadable.sizes
      have hbytes : count.toNat = (file.phdr i).filesz.toNat := by rw [hcount, wide_toNat]
      dsimp only
      rw [hbytes]
      refine Logged.all_bind.mpr ⟨?_, fun _ _ => ?_⟩
      · exact Logged.all_entry.mpr
          ⟨hloadable.contents, .contents hi hloads (Nat.le_refl _) (Nat.le_refl _)⟩
      refine Logged.all_bind.mpr ⟨hwrite hloadable.sizes, fun _ _ => ?_⟩
      refine hfield (by decide) hflags ?_
      refine Logged.all_bind.mpr
        ⟨(hentries.layout (mmuWriteFrom_layout hcopy)).setperm _, fun _ _ => ?_⟩
      exact Logged.all_bind.mpr ⟨hwrite hloadable.sizes, fun _ _ => Logged.all_pure _⟩

theorem elfLoadPhdrLogged_all (hi : i < file.phnum) (hsized : mmu.size.toNat < 2 ^ 63)
    (hbacked : mmu.Backed)
    (htype : file.phoff + Elf32Phdr.size * i + Elf32Phdr.pType + 4 ≤ file.size)
    (hmemsz : (file.phdr i).Loads →
      file.phoff + Elf32Phdr.size * i + Elf32Phdr.pMemsz + 4 ≤ file.size)
    (hrest : (file.phdr i).Loads → (file.phdr i).Granted heap mmu →
      (file.phdr i).Loadable file mmu.base ∧
        file.phoff + Elf32Phdr.size * i + Elf32Phdr.pFlags + 4 ≤ file.size ∧
        mmu.extent.Fits (file.phdr i) mmu.base) :
    (elfLoadPhdrLogged heap file (file.phoff + Elf32Phdr.size * i) mmu).All
      (LoaderAccess.Allowed file) := by
  refine (Logged.all_bind_of_ok (file.word_ok htype)).mpr
    ⟨file.readField_all hi (by decide) htype, ?_⟩
  by_cases hloads : (file.phdr i).Loads
  · rw [if_pos (ElfFile.type_eq_one_iff.mpr hloads)]
    exact elfLoadSegmentLogged_all hi hloads hsized hbacked (hmemsz hloads) (hrest hloads)
  · rw [if_neg (mt ElfFile.type_eq_one_iff.mp hloads)]
    exact Logged.all_pure _

theorem mmuAddMemory_refused {p : Phdr} (hlow : mmu.base.toNat ≤ p.vaddr.toNat)
    (hrefused : ¬ p.Granted heap mmu) (perm : Perm) :
    ∃ m, mmuAddMemory heap mmu p.vaddr (wide p.memsz) perm = .ok (false, m) := by
  unfold Phdr.Granted at hrefused
  rw [Classical.not_imp] at hrefused
  obtain ⟨hextends, hgrants⟩ := hrefused
  rcases mmuExtend_cases heap mmu (mmu.extendedSize p.vaddr (wide p.memsz)) with
    ⟨hgranted, -⟩ | ⟨-, m, -, -, hextend, -⟩
  · exact absurd hgranted hgrants
  · refine ⟨m, ?_⟩
    unfold Mmu.Extends at hextends
    unfold Mmu.extendedSize at hextend
    unfold mmuAddMemory
    have habove : ¬ p.vaddr < mmu.base := Nat.not_lt.mpr hlow
    rw [if_neg habove, if_pos hextends, hextend]

/-- A turn that can go on goes on with the segment loaded. -/
theorem ElfFile.Passes.result (h : file.Passes heap mmu i) (hsized : mmu.size.toNat < 2 ^ 63) :
    elfLoadPhdr heap file (file.phoff + Elf32Phdr.size * i) mmu =
      .ok (true, if (file.phdr i).Loads then mmu.loaded heap file (file.phdr i) else mmu) := by
  unfold elfLoadPhdr
  rw [file.word_ok h.type, Transition.ok_bind]
  by_cases hloads : (file.phdr i).Loads
  · have hloadable := h.loadable hloads
    rw [if_pos (ElfFile.type_eq_one_iff.mpr hloads), if_pos hloads,
      elfLoadSegment_fields (h.flags hloads)]
    exact loadPhdr_copied hloadable.sizes (if_pos hloadable.contents) hsized hloadable.low
      (h.granted hloads)
  · rw [if_neg (mt ElfFile.type_eq_one_iff.mp hloads), if_neg hloads]
    rfl

/-- A turn that can not go on ends the loop. -/
theorem ElfFile.Ends.result (h : file.Ends heap mmu i) :
    ∃ m, elfLoadPhdr heap file (file.phoff + Elf32Phdr.size * i) mmu = .ok (false, m) := by
  obtain ⟨m, hm⟩ := mmuAddMemory_refused h.low h.refused (mpermWrite ||| mpermRaw)
  have hword : ∀ {k : Nat}, k ≤ Elf32Phdr.pMemsz →
      file.word (file.phoff + Elf32Phdr.size * i + k) =
        .ok (file.wordAt (file.phoff + Elf32Phdr.size * i + k)) := by
    intro k hk
    have hmemsz := h.memsz
    exact file.word_ok (by omega)
  refine ⟨m, ?_⟩
  unfold elfLoadPhdr elfLoadSegment
  rw [hword (by decide), Transition.ok_bind, if_pos (ElfFile.type_eq_one_iff.mpr h.loads),
    hword (by decide), Transition.ok_bind, hword (by decide), Transition.ok_bind]
  show mmuAddMemory heap mmu (file.phdr i).vaddr (wide (file.phdr i).memsz) _ >>= _ = _
  rw [hm, Transition.ok_bind]
  rfl

end Header

/-! ## The loop -/

/-- The segment of header `n` ends beyond the memory in front of its turn, and the host does not
have the blocks for more. -/
def ElfFile.Refuses (file : ElfFile) (heap : Heap) (mmu : Mmu) (n : Nat) : Prop :=
  (file.extent mmu n).size < (file.phdr n).endOffset mmu.base ∧
    ¬ heap.GrantsAll (BitVec.ofNat 64 ((file.phdr n).endOffset mmu.base))

/-- The two bytes of `e_ident` that the loader asserts. -/
structure ElfFile.Identified (file : ElfFile) : Prop where
  eiClass : file.byte Elf32Ehdr.eiClass = 1
  eiData : file.byte Elf32Ehdr.eiData = 1

/-- The host refuses the memory for header `n`, nothing that the loader reads before is
malformed, and the permissions of the segments before fit their block. -/
structure ElfFile.StopsAt (file : ElfFile) (heaps : Nat → Heap) (mmu : Mmu) (n : Nat) : Prop where
  header : Elf32Ehdr.ePhnum + 2 ≤ file.size
  identified : file.Identified
  index : n < file.phnum
  memsz : file.phoff + Elf32Phdr.size * n + Elf32Phdr.pMemsz + 4 ≤ file.size
  before : ∀ i < n, (file.phdr i).Loads →
    (file.phdr i).Loadable file mmu.base ∧ ¬ file.Refuses (heaps i) mmu i
  fits : ∀ i < n, file.Fits mmu i
  loads : (file.phdr n).Loads
  low : mmu.base.toNat ≤ (file.phdr n).vaddr.toNat
  refuses : file.Refuses (heaps n) mmu n

section Loop

variable {file : ElfFile} {heaps : Nat → Heap} {heap : Heap} {mmu mmu' : Mmu} {n m : Nat}

theorem ElfFile.Placed.granted_iff (hplaced : file.Placed heaps mmu n)
    (hsized : mmu.size.toNat < 2 ^ 63) (hlow : mmu.base.toNat ≤ (file.phdr n).vaddr.toNat) :
    (file.phdr n).Granted heap (file.image heaps mmu n) ↔ ¬ file.Refuses heap mmu n := by
  obtain ⟨hbase, hextent⟩ := hplaced.image_layout hsized
  have hextends := @Phdr.extends_iff (file.image heaps mmu n) (file.phdr n)
    (hplaced.image_size hsized)
  have hsize := @Phdr.extendedSize_toNat (file.image heaps mmu n) (file.phdr n)
    (by rwa [hbase])
  have hsizes : (file.image heaps mmu n).size.toNat = (file.extent mmu n).size :=
    congrArg Extent.size hextent
  rw [hbase, hsizes] at hextends
  rw [hbase] at hsize
  have hblock : (file.image heaps mmu n).extendedSize (file.phdr n).vaddr
      (wide (file.phdr n).memsz) = BitVec.ofNat 64 ((file.phdr n).endOffset mmu.base) := by
    rw [← hsize, BitVec.ofNat_toNat, BitVec.setWidth_eq]
  unfold Phdr.Granted ElfFile.Refuses
  rw [hextends, hblock, not_and, not_not]

theorem ElfFile.Passes.image (hplaced : file.Placed heaps mmu n) (hsized : mmu.size.toNat < 2 ^ 63)
    (h : file.Passes (heaps n) (file.image heaps mmu n) n) :
    file.Placed heaps mmu (n + 1) ∧
      elfLoadPhdr (heaps n) file (file.phoff + Elf32Phdr.size * n) (file.image heaps mmu n) =
        .ok (true, file.image heaps mmu (n + 1)) := by
  have hbase := (hplaced.image_layout hsized).1
  constructor
  · refine ElfFile.placed_succ_iff.mpr ⟨hplaced, fun hloads => ⟨?_, h.granted hloads⟩⟩
    rw [← hbase]
    exact (h.loadable hloads).low
  · rw [h.result (hplaced.image_size hsized)]
    rfl

/-- The sizes of the loop's memory are those that the file asks for. -/
theorem ElfFile.Placed.fits_iff (hplaced : file.Placed heaps mmu n)
    (hsized : mmu.size.toNat < 2 ^ 63) :
    ((file.phdr n).Loads → (file.image heaps mmu n).extent.Fits (file.phdr n)
      (file.image heaps mmu n).base) ↔ file.Fits mmu n := by
  obtain ⟨hbase, hextent⟩ := hplaced.image_layout hsized
  rw [hbase, hextent]
  rfl

/-- A loop without a forbidden access has found that the permissions of every segment fit
their block, and if it ended early it has stopped at a header. -/
theorem elfLoadLoopLogged_found (hsized : mmu.size.toNat < 2 ^ 63)
    (hplaced : file.Placed heaps mmu n)
    (hall : (elfLoadLoopLogged heaps file file.phoff (List.range' n m)
      (file.image heaps mmu n)).All (LoaderAccess.Allowed file)) {loaded : Bool}
    (h : elfLoadLoop heaps file file.phoff (List.range' n m) (file.image heaps mmu n) =
      .ok (loaded, mmu')) :
    if loaded then ∀ i, n ≤ i → i < n + m → file.Fits mmu i
    else ∃ k, n ≤ k ∧ k < n + m ∧ file.Placed heaps mmu k ∧
      (∀ i, n ≤ i → i < k → file.Fits mmu i ∧
        ((file.phdr i).Loads → (file.phdr i).Loadable file mmu.base)) ∧
      file.Ends (heaps k) (file.image heaps mmu k) k := by
  induction m generalizing n with
  | zero =>
      cases h
      exact fun i hi hi' => by omega
  | succ m ih =>
      rw [List.range'_succ] at hall h
      obtain ⟨hturn, hrest⟩ := Logged.all_bind.mp hall
      obtain ⟨⟨passed, next⟩, hnext, h⟩ := exists_of_bind_ok h
      rw [← elfLoadPhdrLogged_result] at hnext
      have hfound := elfLoadPhdrLogged_vouches (hplaced.image_size hsized) hturn _ hnext
      cases passed with
      | false =>
          cases h
          exact ⟨n, Nat.le_refl n, by omega, hplaced, fun i hi hi' => by omega, hfound⟩
      | true =>
          obtain ⟨hpasses, hfits⟩ := hfound
          rw [hplaced.fits_iff hsized] at hfits
          obtain ⟨hplaced', himage⟩ := hpasses.image hplaced hsized
          have hloadable := hpasses.loadable
          rw [(hplaced.image_layout hsized).1] at hloadable
          have htail := hrest _ hnext
          rw [elfLoadPhdrLogged_result, himage] at hnext
          cases hnext
          have hlater := ih hplaced' htail h
          cases loaded with
          | true =>
              intro i hi hi'
              rcases Nat.eq_or_lt_of_le hi with rfl | hlt
              · exact hfits
              · exact hlater i hlt (by omega)
          | false =>
              obtain ⟨k, hlow, hhigh, hat, hbefore, hends⟩ := hlater
              refine ⟨k, by omega, by omega, hat, fun i hi hik => ?_, hends⟩
              rcases Nat.eq_or_lt_of_le hi with rfl | hlt
              · exact ⟨hfits, hloadable⟩
              · exact hbefore i hlt hik

theorem ElfFile.placed_of_before (hsized : mmu.size.toNat < 2 ^ 63)
    (hbefore : ∀ i < n, (file.phdr i).Loads →
      (file.phdr i).Loadable file mmu.base ∧ ¬ file.Refuses (heaps i) mmu i) :
    file.Placed heaps mmu n := by
  induction n with
  | zero => exact fun i hi => absurd hi (Nat.not_lt_zero i)
  | succ n ih =>
      have hplaced := ih fun i hi => hbefore i (by omega)
      refine ElfFile.placed_succ_iff.mpr ⟨hplaced, fun hloads => ?_⟩
      obtain ⟨hloadable, hgrants⟩ := hbefore n (Nat.lt_succ_self n) hloads
      exact ⟨hloadable.low, (hplaced.granted_iff hsized hloadable.low).mpr hgrants⟩

section Stops

variable {k : Nat}

theorem ElfFile.StopsAt.placed (h : file.StopsAt heaps mmu k) (hsized : mmu.size.toNat < 2 ^ 63)
    (hn : n ≤ k) : file.Placed heaps mmu n :=
  ElfFile.placed_of_before hsized fun i hi => h.before i (by omega)

/-- In front of the header that it stops at, the loader passes every header. -/
theorem ElfFile.StopsAt.passes (h : file.StopsAt heaps mmu k) (hsized : mmu.size.toNat < 2 ^ 63)
    (hn : n < k) : file.Passes (heaps n) (file.image heaps mmu n) n := by
  have hplaced := h.placed hsized (Nat.le_of_lt hn)
  have hbase := (hplaced.image_layout hsized).1
  have hmemsz := h.memsz
  have hmul : Elf32Phdr.size * (n + 1) ≤ Elf32Phdr.size * k := Nat.mul_le_mul_left _ hn
  rw [Nat.mul_succ] at hmul
  have hfield : ∀ {f : Nat}, f + 4 ≤ Elf32Phdr.size →
      file.phoff + Elf32Phdr.size * n + f + 4 ≤ file.size := by
    intro f hf
    omega
  refine ⟨hfield (by decide), fun _ => hfield (by decide), fun hloads => ?_, fun hloads => ?_⟩
  · rw [hbase]
    exact (h.before n hn hloads).1
  · obtain ⟨hloadable, hgrants⟩ := h.before n hn hloads
    exact (hplaced.granted_iff hsized hloadable.low).mpr hgrants

theorem ElfFile.StopsAt.ends (h : file.StopsAt heaps mmu k) (hsized : mmu.size.toNat < 2 ^ 63) :
    file.Ends (heaps k) (file.image heaps mmu k) k := by
  have hplaced := h.placed hsized (Nat.le_refl k)
  refine ⟨h.memsz, h.loads, ?_, fun hgranted => ?_⟩
  · rw [(hplaced.image_layout hsized).1]
    exact h.low
  · exact (hplaced.granted_iff hsized h.low).mp hgranted h.refuses

theorem ElfFile.Passes.all (h : file.Passes heap mmu n) (hn : n < file.phnum)
    (hsized : mmu.size.toNat < 2 ^ 63) (hbacked : mmu.Backed)
    (hfits : (file.phdr n).Loads → mmu.extent.Fits (file.phdr n) mmu.base) :
    (elfLoadPhdrLogged heap file (file.phoff + Elf32Phdr.size * n) mmu).All
      (LoaderAccess.Allowed file) := by
  have hle : Elf32Phdr.pMemsz ≤ Elf32Phdr.pFlags := by decide
  refine elfLoadPhdrLogged_all hn hsized hbacked h.type (fun hloads => ?_)
    fun hloads _ => ⟨h.loadable hloads, h.flags hloads, hfits hloads⟩
  have hflags := h.flags hloads
  omega

theorem ElfFile.Ends.all (h : file.Ends heap mmu n) (hn : n < file.phnum)
    (hsized : mmu.size.toNat < 2 ^ 63) (hbacked : mmu.Backed) :
    (elfLoadPhdrLogged heap file (file.phoff + Elf32Phdr.size * n) mmu).All
      (LoaderAccess.Allowed file) := by
  have hle : Elf32Phdr.pType ≤ Elf32Phdr.pMemsz := by decide
  have hmemsz := h.memsz
  exact elfLoadPhdrLogged_all hn hsized hbacked (by omega) (fun _ => hmemsz)
    fun _ hgranted => absurd hgranted h.refused

/-- Up to the header that it stops at, the loop makes no forbidden access. -/
theorem ElfFile.StopsAt.loop (h : file.StopsAt heaps mmu k) (hsized : mmu.size.toNat < 2 ^ 63)
    (hbacked : mmu.Backed) (hlow : n ≤ k) (hhigh : k < n + m) :
    (elfLoadLoopLogged heaps file file.phoff (List.range' n m) (file.image heaps mmu n)).All
        (LoaderAccess.Allowed file) ∧
      ∃ mmu', elfLoadLoop heaps file file.phoff (List.range' n m) (file.image heaps mmu n) =
        .ok (false, mmu') := by
  have hindex := h.index
  induction m generalizing n with
  | zero => omega
  | succ m ih =>
      have hplaced := h.placed hsized hlow
      have hsize := hplaced.image_size hsized
      have hback := hplaced.image_backed hbacked
      rw [List.range'_succ]
      rcases Nat.eq_or_lt_of_le hlow with rfl | hlt
      · have hends := h.ends hsized
        obtain ⟨m', hm'⟩ := hends.result
        refine ⟨(Logged.all_bind_of_ok (elfLoadPhdrLogged_result.trans hm')).mpr
          ⟨hends.all hindex hsize hback, Logged.all_pure _⟩, m', ?_⟩
        rw [elfLoadLoop, hm']
        rfl
      · have hpasses := h.passes hsized hlt
        have hfits := (hplaced.fits_iff hsized).mpr (h.fits n hlt)
        have himage := (hpasses.image hplaced hsized).2
        obtain ⟨hall, mmu', hloop⟩ := ih hlt (by omega)
        refine ⟨(Logged.all_bind_of_ok (elfLoadPhdrLogged_result.trans himage)).mpr
          ⟨hpasses.all (by omega) hsize hback hfits, hall⟩, mmu', ?_⟩
        rw [elfLoadLoop, himage]
        exact hloop

end Stops

/-! ### Sound tables -/

/-- A sound header is passed when the host has the memory for it, and else ends the loop. -/
theorem ElfFile.Sound.passes (h : file.Sound mmu.base) (hsized : mmu.size.toNat < 2 ^ 63)
    (hplaced : file.Placed heaps mmu n) (hn : n < file.phnum) :
    file.Passes (heaps n) (file.image heaps mmu n) n ∨
      file.Ends (heaps n) (file.image heaps mmu n) n := by
  have htable := h.table n hn
  have hbase := (hplaced.image_layout hsized).1
  have hfield : ∀ {f : Nat}, f + 4 ≤ Elf32Phdr.size →
      file.phoff + Elf32Phdr.size * n + f + 4 ≤ file.size := by
    intro f hf
    omega
  have hloadable : (file.phdr n).Loads →
      (file.phdr n).Loadable file (file.image heaps mmu n).base := by
    rw [hbase]
    exact h.segments n hn
  by_cases hgranted : (file.phdr n).Loads → (file.phdr n).Granted (heaps n) (file.image heaps mmu n)
  · exact Or.inl ⟨hfield (by decide), fun _ => hfield (by decide), hloadable, hgranted⟩
  · rw [Classical.not_imp] at hgranted
    obtain ⟨hloads, hrefused⟩ := hgranted
    exact Or.inr ⟨hfield (by decide), hloads, (hloadable hloads).low, hrefused⟩

/-- Over a sound table the loop returns, and makes no forbidden access when the permissions of
the segments fit their block. -/
theorem ElfFile.Sound.loop (h : file.Sound mmu.base) (hsized : mmu.size.toNat < 2 ^ 63)
    (hbacked : mmu.Backed) (hplaced : file.Placed heaps mmu n) (hm : n + m ≤ file.phnum) :
    (∃ x, elfLoadLoop heaps file file.phoff (List.range' n m) (file.image heaps mmu n) = .ok x) ∧
      ((∀ i < file.phnum, file.Fits mmu i) →
        (elfLoadLoopLogged heaps file file.phoff (List.range' n m) (file.image heaps mmu n)).All
          (LoaderAccess.Allowed file)) := by
  induction m generalizing n with
  | zero => exact ⟨⟨_, rfl⟩, fun _ => Logged.all_pure _⟩
  | succ m ih =>
      have hn : n < file.phnum := by omega
      have hsize := hplaced.image_size hsized
      have hback := hplaced.image_backed hbacked
      rw [List.range'_succ, elfLoadLoop]
      rcases h.passes hsized hplaced hn with hpasses | hends
      · obtain ⟨hplaced', himage⟩ := hpasses.image hplaced hsized
        obtain ⟨hreturns, hall⟩ := ih hplaced' (by omega)
        rw [himage]
        refine ⟨hreturns, fun hfits => ?_⟩
        exact (Logged.all_bind_of_ok (elfLoadPhdrLogged_result.trans himage)).mpr
          ⟨hpasses.all hn hsize hback ((hplaced.fits_iff hsized).mpr (hfits n hn)), hall hfits⟩
      · obtain ⟨m', hm'⟩ := hends.result
        rw [hm']
        refine ⟨⟨_, rfl⟩, fun _ => ?_⟩
        exact (Logged.all_bind_of_ok (elfLoadPhdrLogged_result.trans hm')).mpr
          ⟨hends.all hn hsize hback, Logged.all_pure _⟩

end Loop

/-! ## The file -/

section File

variable {file : ElfFile} {heaps : Nat → Heap} {mmu mmu' : Mmu} {granted : Bool} {n : Nat}

/-- What the loader reads in front of the loop, of a file with the header up to `e_phnum`. -/
theorem ElfFile.header_ok (h : Elf32Ehdr.ePhnum + 2 ≤ file.size) :
    file.uchar Elf32Ehdr.eiClass = .ok (file.byte Elf32Ehdr.eiClass) ∧
      file.uchar Elf32Ehdr.eiData = .ok (file.byte Elf32Ehdr.eiData) ∧
        file.word Elf32Ehdr.ePhoff = .ok (file.wordAt Elf32Ehdr.ePhoff) ∧
          file.half Elf32Ehdr.ePhnum = .ok (file.halfAt Elf32Ehdr.ePhnum) := by
  have hclass : Elf32Ehdr.eiClass + 1 ≤ Elf32Ehdr.ePhnum + 2 := by decide
  have hdata : Elf32Ehdr.eiData + 1 ≤ Elf32Ehdr.ePhnum + 2 := by decide
  have hphoff : Elf32Ehdr.ePhoff + 4 ≤ Elf32Ehdr.ePhnum + 2 := by decide
  exact ⟨if_pos (by omega), if_pos (by omega), file.word_ok (by omega), if_pos h⟩

/-- A loop that ended early without a forbidden access has stopped at a header. -/
theorem ElfFile.Identified.stopsAt (hident : file.Identified) (hsized : mmu.size.toNat < 2 ^ 63)
    (hheader : Elf32Ehdr.ePhnum + 2 ≤ file.size)
    (hall : (elfLoadLoopLogged heaps file file.phoff (List.range' 0 file.phnum) mmu).All
      (LoaderAccess.Allowed file))
    (h : elfLoadLoop heaps file file.phoff (List.range' 0 file.phnum) mmu = .ok (false, mmu')) :
    ∃ n, file.StopsAt heaps mmu n := by
  have hnone : file.Placed heaps mmu 0 := fun i hi => absurd hi (Nat.not_lt_zero i)
  obtain ⟨k, -, hk, hplaced, hbefore, hends⟩ := elfLoadLoopLogged_found hsized hnone hall h
  have hbase := (hplaced.image_layout hsized).1
  have hlow := hends.low
  rw [hbase] at hlow
  refine ⟨k, hheader, hident, by rwa [Nat.zero_add] at hk, hends.memsz,
    fun i hi hloads => ?_, fun i hi => (hbefore i (Nat.zero_le i) hi).1, hends.loads, hlow, ?_⟩
  · have hloadable := (hbefore i (Nat.zero_le i) hi).2 hloads
    have hat := hplaced.mono (Nat.le_of_lt hi)
    exact ⟨hloadable, (hat.granted_iff hsized hloadable.low).mp (hplaced i hi hloads).2⟩
  · exact Classical.not_not.mp (mt (hplaced.granted_iff hsized hlow).mpr hends.refused)

/-- A null pointer without a forbidden access comes from a header that the loop stopped at. -/
theorem elfLoadLogged_stopped (hsized : mmu.size.toNat < 2 ^ 63)
    (hall : (elfLoadLogged true heaps file mmu).All (LoaderAccess.Allowed file))
    (h : elfLoad true heaps file mmu = .ok (none, mmu')) : ∃ n, file.StopsAt heaps mmu n := by
  rw [← elfLoadLogged_result] at h
  obtain ⟨eiClass, hclass, hall, h⟩ := Logged.exists_of_all_bind_ok hall h
  by_cases hclass1 : eiClass = 1
  swap
  · rw [if_pos hclass1] at h
    cases h
  rw [if_neg (not_not_intro hclass1)] at hall h
  obtain ⟨eiData, hdata, hall, h⟩ := Logged.exists_of_all_bind_ok hall h
  by_cases hdata1 : eiData = 1
  swap
  · rw [if_pos hdata1] at h
    cases h
  rw [if_neg (not_not_intro hdata1)] at hall h
  obtain ⟨phoff, hphoff, hall, h⟩ := Logged.exists_of_all_bind_ok hall h
  obtain ⟨phnum, hphnum, hall, h⟩ := Logged.exists_of_all_bind_ok hall h
  obtain ⟨hheader, hphnum⟩ := of_ite_ok hphnum
  have hphoff := (of_ite_ok hphoff).2
  have hloopAll := (Logged.all_bind.mp hall).1
  obtain ⟨⟨loaded, next⟩, hloop, hall, h⟩ := Logged.exists_of_all_bind_ok hall h
  rw [elfLoadLoopLogged_result] at hloop
  rw [← hphoff, ← hphnum, List.range_eq_range'] at hloop hloopAll
  cases loaded with
  | true =>
      obtain ⟨entry, -, -, h⟩ := Logged.exists_of_all_bind_ok hall h
      cases h
  | false =>
      have hident : file.Identified :=
        ⟨(of_ite_ok hclass).2.trans hclass1, (of_ite_ok hdata).2.trans hdata1⟩
      exact hident.stopsAt hsized hheader hloopAll hloop

/-- The log of the loop is a part of the log. -/
theorem ElfFile.Identified.loop_all (hident : file.Identified) {P : LoaderAccess → Prop}
    (hheader : Elf32Ehdr.ePhnum + 2 ≤ file.size)
    (hall : (elfLoadLogged true heaps file mmu).All P) :
    (elfLoadLoopLogged heaps file file.phoff (List.range' 0 file.phnum) mmu).All P := by
  obtain ⟨heiClass, heiData, hphoff, hphnum⟩ := ElfFile.header_ok hheader
  have hclass := ((Logged.all_bind_of_ok heiClass).mp hall).2
  rw [if_neg (not_not_intro hident.eiClass)] at hclass
  have hdata := ((Logged.all_bind_of_ok heiData).mp hclass).2
  rw [if_neg (not_not_intro hident.eiData)] at hdata
  have htable := ((Logged.all_bind_of_ok hphoff).mp hdata).2
  have hloop := ((Logged.all_bind_of_ok hphnum).mp htable).2
  rw [List.range_eq_range'] at hloop
  exact (Logged.all_bind.mp hloop).1

/-- Without a forbidden access every permission of a sound file fits its block, or the host
refuses the memory for one of its headers. -/
theorem ElfFile.Sound.fits (h : file.Sound mmu.base) (hsized : mmu.size.toNat < 2 ^ 63)
    (hbacked : mmu.Backed) (hident : file.Identified)
    (hall : (elfLoadLogged true heaps file mmu).All (LoaderAccess.Allowed file)) :
    (∀ i < file.phnum, file.Fits mmu i) ∨ ∃ n, file.StopsAt heaps mmu n := by
  have hnone : file.Placed heaps mmu 0 := fun i hi => absurd hi (Nat.not_lt_zero i)
  have hsize : Elf32Ehdr.ePhnum + 2 ≤ Elf32Ehdr.size := by decide
  have hheader := h.header
  have hloop := hident.loop_all (by omega) hall
  obtain ⟨⟨loaded, m⟩, hreturns⟩ :=
    (h.loop hsized hbacked hnone (Nat.le_of_eq (Nat.zero_add file.phnum))).1
  cases loaded with
  | true =>
      refine Or.inl fun i hi => ?_
      exact elfLoadLoopLogged_found hsized hnone hloop hreturns i (Nat.zero_le i) (by omega)
  | false => exact Or.inr (hident.stopsAt hsized (by omega) hloop hreturns)

/-- In front of the loop only the header is read, and behind it too. -/
theorem elfLoadLogged_all (hheader : Elf32Ehdr.ePhnum + 2 ≤ file.size)
    (hloop : file.Identified →
      (elfLoadLoopLogged heaps file file.phoff (List.range' 0 file.phnum) mmu).All
        (LoaderAccess.Allowed file)) :
    (elfLoadLogged true heaps file mmu).All (LoaderAccess.Allowed file) := by
  have hread : ∀ {α : Type} {off k : Nat} {x : Except Abort α}, off + k ≤ Elf32Ehdr.ePhnum + 2 →
      (reading off k x).All (LoaderAccess.Allowed file) := by
    intro α off k x hk
    have hsize : Elf32Ehdr.ePhnum + 2 ≤ Elf32Ehdr.size := by decide
    exact Logged.all_entry.mpr ⟨Or.inr (by omega), .header (by omega)⟩
  obtain ⟨heiClass, heiData, hphoff, hphnum⟩ := ElfFile.header_ok hheader
  refine (Logged.all_bind_of_ok heiClass).mpr ⟨hread (by decide), ?_⟩
  by_cases hclass : file.byte Elf32Ehdr.eiClass ≠ 1
  · rw [if_pos hclass]
    exact Logged.all_lift _
  rw [if_neg hclass]
  refine (Logged.all_bind_of_ok heiData).mpr ⟨hread (by decide), ?_⟩
  by_cases hdata : file.byte Elf32Ehdr.eiData ≠ 1
  · rw [if_pos hdata]
    exact Logged.all_lift _
  rw [if_neg hdata]
  refine (Logged.all_bind_of_ok hphoff).mpr ⟨hread (by decide), ?_⟩
  refine (Logged.all_bind_of_ok hphnum).mpr ⟨hread (by decide), ?_⟩
  rw [List.range_eq_range']
  refine Logged.all_bind.mpr ⟨hloop ⟨not_not.mp hclass, not_not.mp hdata⟩, ?_⟩
  rintro ⟨loaded, next⟩ -
  cases loaded with
  | false => exact Logged.all_pure _
  | true => exact Logged.all_bind.mpr ⟨hread (by decide), fun _ _ => Logged.all_pure _⟩

/-- A sound file whose permissions fit their block is loaded without a forbidden access. -/
theorem ElfFile.Sound.all (h : file.Sound mmu.base) (hsized : mmu.size.toNat < 2 ^ 63)
    (hbacked : mmu.Backed) (hfits : file.Identified → ∀ i < file.phnum, file.Fits mmu i) :
    (elfLoadLogged true heaps file mmu).All (LoaderAccess.Allowed file) := by
  have hnone : file.Placed heaps mmu 0 := fun i hi => absurd hi (Nat.not_lt_zero i)
  have hsize : Elf32Ehdr.ePhnum + 2 ≤ Elf32Ehdr.size := by decide
  have hheader := h.header
  have hloop := (h.loop hsized hbacked hnone (Nat.le_of_eq (Nat.zero_add file.phnum))).2
  exact elfLoadLogged_all (by omega) fun hident => hloop (hfits hident)

/-- A loop that stops at a header gives the null pointer. -/
theorem ElfFile.StopsAt.result (h : file.StopsAt heaps mmu n) (hsized : mmu.size.toNat < 2 ^ 63)
    (hbacked : mmu.Backed) :
    ∃ mmu', elfLoad true heaps file mmu = .ok (none, mmu') := by
  obtain ⟨hclass, hdata, hphoff, hphnum⟩ := ElfFile.header_ok h.header
  have hindex : n < 0 + file.phnum := by
    rw [Nat.zero_add]
    exact h.index
  obtain ⟨mmu', hloop⟩ := (h.loop hsized hbacked (Nat.zero_le n) hindex).2
  have hloop' : elfLoadLoop heaps file (file.wordAt Elf32Ehdr.ePhoff).toNat
      (List.range (file.halfAt Elf32Ehdr.ePhnum).toNat) mmu = .ok (false, mmu') := by
    rw [List.range_eq_range']
    exact hloop
  refine ⟨mmu', ?_⟩
  unfold elfLoad
  rw [Bool.not_true, if_neg Bool.false_ne_true, hclass, Transition.ok_bind,
    if_neg (not_not_intro h.identified.eiClass), hdata, Transition.ok_bind,
    if_neg (not_not_intro h.identified.eiData), hphoff, Transition.ok_bind, hphnum,
    Transition.ok_bind, hloop', Transition.ok_bind]
  rfl

theorem elfLoadLogged_refused :
    (elfLoadLogged false heaps file mmu).All (LoaderAccess.Allowed file) ∧
      elfLoad false heaps file mmu = .ok (none, mmu) := ⟨Logged.all_pure _, rfl⟩

/-- The addresses outside the segments are in no access that is allowed. -/
theorem ElfFile.guarded_of_all (hsized : mmu.size.toNat < 2 ^ 63) (hbacked : mmu.Backed)
    (hall : (elfLoadLogged granted heaps file mmu).All (LoaderAccess.Allowed file))
    (hrejects : ¬ file.Sound mmu.base →
      ∃ mmu', elfLoad granted heaps file mmu = .ok (none, mmu')) :
    file.Guarded granted heaps mmu where
  accesses := hall
  frame := by
    intro r mmu' h a hlow ha hout
    refine elfLoad_unwritten hsized hbacked.data hlow ha (fun access haccess hwritten => ?_) h
    have hallowed := hall access haccess
    cases access with
    | read off n => exact hwritten
    | array block width lo hi => exact hwritten
    | write phdr vaddr n =>
        obtain ⟨i, hi, -, hloads, hsubset⟩ := hallowed
        exact hout i hi hloads (hsubset hwritten)
  rejects := hrejects

/-- The loader is guarded for the sound files whose permissions fit their block, and for the
others when the host refuses it the memory before it comes to what is malformed or does not
fit. -/
theorem guarded_iff (hcovers : mmu.Covers) :
    file.Guarded granted heaps mmu ↔
      file.Sound mmu.base ∧ (file.Identified → ∀ i < file.phnum, file.Fits mmu i) ∨
        granted = false ∨ ∃ n, file.StopsAt heaps mmu n := by
  have hbacked := hcovers.backed
  have hsized := hcovers.sized
  constructor
  · rintro ⟨hall, -, hnull⟩
    cases granted with
    | false => exact Or.inr (Or.inl rfl)
    | true =>
        by_cases hstops : ∃ n, file.StopsAt heaps mmu n
        · exact Or.inr (Or.inr hstops)
        · have hsound : file.Sound mmu.base := by
            by_contra hmalformed
            obtain ⟨mmu', hload⟩ := hnull hmalformed
            exact hstops (elfLoadLogged_stopped hsized hall hload)
          refine Or.inl ⟨hsound, fun hident => ?_⟩
          exact (hsound.fits hsized hbacked hident hall).resolve_right hstops
  · intro h
    cases granted with
    | false =>
        exact ElfFile.guarded_of_all hsized hbacked elfLoadLogged_refused.1
          fun _ => ⟨mmu, elfLoadLogged_refused.2⟩
    | true =>
        rcases h with ⟨hsound, hfits⟩ | h | ⟨n, hstops⟩
        · exact ElfFile.guarded_of_all hsized hbacked (hsound.all hsized hbacked hfits)
            fun h => absurd hsound h
        · cases h
        · have hindex : n < 0 + file.phnum := by
            rw [Nat.zero_add]
            exact hstops.index
          have hloop := (hstops.loop hsized hbacked (Nat.zero_le n) hindex).1
          exact ElfFile.guarded_of_all hsized hbacked
            (elfLoadLogged_all hstops.header fun _ => hloop)
            fun _ => hstops.result hsized hbacked

end File

/-- Segments inside a memory that its blocks cover need no other block. -/
theorem ElfFile.Inside.fits {file : ElfFile} {mmu : Mmu} (h : file.Inside mmu)
    (hcovers : mmu.Covers) {i : Nat} (hi : i < file.phnum) : file.Fits mmu i := by
  intro hloads hmemsz
  have hend := Phdr.endOffset_le (h i hi hloads)
  rw [h.extent_eq (Nat.le_of_lt hi)]
  exact ⟨hend, Nat.le_trans (Nat.mul_le_mul_left _ hend) hcovers.perm⟩

theorem ElfFile.WellFormed.sound {file : ElfFile} {b : Vaddr} (h : file.WellFormed)
    (hstarts : file.StartsAt b) : file.Sound b where
  header := h.header
  table := fun _ hi => h.phdr_le hi
  segments := fun i hi hloads =>
    ⟨hstarts i hi hloads, h.sizes i hi hloads, Or.inr (h.contents i hi hloads)⟩

/-! ## Files -/

/-- A host without any memory. -/
def emptyHeap : Heap :=
  { generousHeap with
    grants := fun _ _ => false
    grants_lt := nofun }

/-- No more than the magic number. -/
def magicFile : ElfFile where
  bytes := wordBytes 0x464c457f

/-- Larger in the file than in memory, and beyond the memory. -/
theorem segmentFile_stopsAt :
    (segmentFile 0x100000 8 4).StopsAt (fun _ => emptyHeap) initialMmu 0 where
  header := by
    rw [segmentFile_size]
    decide
  identified := ⟨rfl, rfl⟩
  index := by
    have hphnum : (segmentFile 0x100000 8 4).phnum = 1 := rfl
    rw [hphnum]
    decide
  memsz := by
    have hphoff : (segmentFile 0x100000 8 4).phoff = 52 := rfl
    rw [hphoff, segmentFile_size]
    decide
  before := fun i hi => absurd hi (Nat.not_lt_zero i)
  fits := fun i hi => absurd hi (Nat.not_lt_zero i)
  loads := rfl
  low := by
    have hvaddr : ((segmentFile 0x100000 8 4).phdr 0).vaddr = 0x100000 := rfl
    rw [hvaddr]
    decide
  refuses := by
    have hend : ((segmentFile 0x100000 8 4).phdr 0).endOffset initialMmu.base = 0xf0004 := rfl
    refine ⟨?_, fun h => Bool.false_ne_true h.1⟩
    rw [hend]
    decide

/-- The entry of a file with one header. -/
theorem ElfFile.Sound.single {file : ElfFile} {b : Vaddr} {p : Phdr} (h : file.Sound b)
    (hphnum : file.phnum = 1) (hphdr : file.phdr 0 = p) (hloads : p.Loads) : p.Loadable file b := by
  rw [← hphdr] at hloads ⊢
  exact h.segments 0 (by omega) hloads

theorem noteFile_inside_ram : noteFile.Inside initialMmu := by
  intro i hi hloads
  rw [noteFile_loads hi hloads, noteFile_segment]
  exact ⟨by decide, by decide⟩

/-- Three bytes at the end of RAM and one behind it: sound, but the memory has to be extended. -/
theorem segmentFile_unfit : ¬ (segmentFile 0x7fffc 4 4).Fits initialMmu 0 := by
  intro hfits
  have hend := (hfits rfl (by decide : ((segmentFile 0x7fffc 4 4).phdr 0).memsz ≠ 0)).1
  have hoffset : ((segmentFile 0x7fffc 4 4).phdr 0).endOffset initialMmu.base = 0x70000 := rfl
  rw [hoffset] at hend
  exact absurd hend (by decide)

/-- A file inside the memory, one that is malformed and beyond the memory of its host, and one
that is sound but extends the memory. -/
theorem files_guarded :
    noteFile.Guarded true (fun _ => generousHeap) initialMmu ∧
    ¬ (segmentFile 0x100000 8 4).Sound initialMmu.base ∧
    (segmentFile 0x100000 8 4).Guarded true (fun _ => emptyHeap) initialMmu ∧
    ¬ (segmentFile 0x7fffc 4 4).Guarded true (fun _ => generousHeap) initialMmu := by
  refine ⟨(guarded_iff initialMmu_covers).mpr (Or.inl
      ⟨noteFile_wellFormed.sound noteFile_startsAt_ram,
        fun _ i hi => noteFile_inside_ram.fits initialMmu_covers hi⟩), ?_,
    (guarded_iff initialMmu_covers).mpr (Or.inr (Or.inr ⟨0, segmentFile_stopsAt⟩)), ?_⟩
  · have hphdr : (segmentFile 0x100000 8 4).phdr 0 =
        { type := 1, offset := 84, vaddr := 0x100000, filesz := 8, memsz := 4, flags := 4 } := rfl
    intro hsound
    have hsizes := (hsound.single rfl hphdr rfl).sizes
    exact absurd hsizes (by decide)
  · have hphnum : (segmentFile 0x7fffc 4 4).phnum = 1 := rfl
    intro hguarded
    rcases (guarded_iff initialMmu_covers).mp hguarded with ⟨-, hfits⟩ | h | ⟨n, hstops⟩
    · exact segmentFile_unfit (hfits ⟨rfl, rfl⟩ 0 (by rw [hphnum]; decide))
    · cases h
    · have hn := hstops.index
      rw [hphnum] at hn
      rw [Nat.lt_one_iff.mp hn] at hstops
      refine hstops.refuses.2 (generousHeap_generous.grantsAll ?_)
      have hend := ((segmentFile 0x7fffc 4 4).phdr 0).endOffset_lt initialMmu.base
      rw [BitVec.toNat_ofNat, Nat.mod_eq_of_lt (by omega)]
      omega

theorem ElfFile.not_guarded {file : ElfFile} {heaps : Nat → Heap} {mmu : Mmu}
    (hmalformed : ¬ file.Sound mmu.base)
    (hload : ∀ mmu', elfLoad true heaps file mmu ≠ .ok (none, mmu')) :
    ¬ file.Guarded true heaps mmu := by
  intro hguarded
  obtain ⟨mmu', h⟩ := hguarded.rejects hmalformed
  exact hload mmu' h

/-- A truncated header and a segment behind the end of the file are read, a segment below the
memory fails an assertion, and one that is larger in the file than in memory is loaded. -/
theorem malformed_followed :
    (¬ magicFile.Guarded true (fun _ => generousHeap) initialMmu ∧
      elfLoad true (fun _ => generousHeap) magicFile initialMmu = .error .outOfBounds) ∧
    (¬ (segmentFile 0x10000 64 64).Guarded true (fun _ => generousHeap) initialMmu ∧
      elfLoad true (fun _ => generousHeap) (segmentFile 0x10000 64 64) initialMmu =
        .error .outOfBounds) ∧
    (¬ (segmentFile 0x8000 4 4).Guarded true (fun _ => generousHeap) initialMmu ∧
      elfLoad true (fun _ => generousHeap) (segmentFile 0x8000 4 4) initialMmu =
        .error .assertion) ∧
    (¬ (segmentFile 0x10000 8 4).Guarded true (fun _ => generousHeap) initialMmu ∧
      ∃ elf mmu', elfLoad true (fun _ => generousHeap) (segmentFile 0x10000 8 4) initialMmu =
        .ok (some elf, mmu')) := by
  have hmagic : elfLoad true (fun _ => generousHeap) magicFile initialMmu =
      .error .outOfBounds := rfl
  have hbehind : elfLoad true (fun _ => generousHeap) (segmentFile 0x10000 64 64) initialMmu =
      .error .outOfBounds := rfl
  have hbelow : elfLoad true (fun _ => generousHeap) (segmentFile 0x8000 4 4) initialMmu =
      .error .assertion := rfl
  have hlong : ∃ elf mmu', elfLoad true (fun _ => generousHeap) (segmentFile 0x10000 8 4)
      initialMmu = .ok (some elf, mmu') := ⟨_, _, rfl⟩
  refine ⟨⟨ElfFile.not_guarded ?_ ?_, hmagic⟩, ⟨ElfFile.not_guarded ?_ ?_, hbehind⟩,
    ⟨ElfFile.not_guarded ?_ ?_, hbelow⟩, ElfFile.not_guarded ?_ ?_, hlong⟩
  · have hsize : magicFile.size = 4 := rfl
    intro hsound
    have hheader := hsound.header
    rw [hsize] at hheader
    exact absurd hheader (by decide)
  · exact fun mmu' h => by cases hmagic.symm.trans h
  · have hphdr : (segmentFile 0x10000 64 64).phdr 0 =
        { type := 1, offset := 84, vaddr := 0x10000, filesz := 64, memsz := 64, flags := 4 } := rfl
    intro hsound
    have hcontents := (hsound.single rfl hphdr rfl).contents
    rw [segmentFile_size] at hcontents
    exact absurd hcontents (by decide)
  · exact fun mmu' h => by cases hbehind.symm.trans h
  · have hphdr : (segmentFile 0x8000 4 4).phdr 0 =
        { type := 1, offset := 84, vaddr := 0x8000, filesz := 4, memsz := 4, flags := 4 } := rfl
    intro hsound
    have hlow := (hsound.single rfl hphdr rfl).low
    exact absurd hlow (by decide)
  · exact fun mmu' h => by cases hbelow.symm.trans h
  · have hphdr : (segmentFile 0x10000 8 4).phdr 0 =
        { type := 1, offset := 84, vaddr := 0x10000, filesz := 8, memsz := 4, flags := 4 } := rfl
    intro hsound
    have hsizes := (hsound.single rfl hphdr rfl).sizes
    exact absurd hsizes (by decide)
  · obtain ⟨elf, m, hlong⟩ := hlong
    exact fun mmu' h => by cases hlong.symm.trans h

end CRiscV
