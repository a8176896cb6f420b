/-
The loader with a log of what it touches: the bytes of the file that it reads, the memory
that it writes for a program header, and the entries of the memory's arrays that it uses.
-/
import CRiscV.Emulator.Image
import CRiscV.Transition.Logged

namespace CRiscV

open Transition (Logged Returns returns_ok returns_error returns_bind exists_of_bind_ok)

/-- `n` bytes of the file from an offset on; the memory, or the permissions, of `n` addresses
that the header at the offset `phdr` is loaded to; and the entries `[lo, hi)`, of `width` bytes
each, of an array whose block has `block` bytes. -/
inductive LoaderAccess where
  | read (off n : Nat)
  | write (phdr vaddr n : Nat)
  | array (block : Size) (width lo hi : Nat)

/-- The addresses that are written. -/
def LoaderAccess.written : LoaderAccess → Set Nat
  | .read .. | .array .. => ∅
  | .write _ vaddr n => Set.Ico vaddr (vaddr + n)

abbrev Loading := Logged LoaderAccess Abort

def reading {α : Type} (off n : Nat) (x : Except Abort α) : Loading α := Logged.entry (.read off n) x

def writing (phdr vaddr n : Nat) : Loading Unit := Logged.entry (.write phdr vaddr n) (.ok ())

def touching (block : Size) (width lo hi : Nat) : Loading Unit :=
  Logged.entry (.array block width lo hi) (.ok ())

def ElfFile.readUchar (file : ElfFile) (off : Nat) : Loading (BitVec 8) :=
  reading off 1 (file.uchar off)

def ElfFile.readHalf (file : ElfFile) (off : Nat) : Loading (BitVec 16) :=
  reading off 2 (file.half off)

def ElfFile.readWord (file : ElfFile) (off : Nat) : Loading Word := reading off 4 (file.word off)

/-! ## The functions of the MMU that the loader calls -/

def mmuSetpermLogged (mmu : Mmu) (vaddr : Vaddr) (size : Size) (perm : Perm) : Loading Mmu := do
  let mmu' ← Logged.lift (mmuSetperm mmu vaddr size perm)
  touching mmu.permBlock sizeofPerm.toNat (mmu.offset vaddr).toNat (mmu.offsetEnd vaddr size).toNat
  return mmu'

def mmuAddMemoryLogged (heap : Heap) (mmu : Mmu) (addr : Vaddr) (size : Size) (perm : Perm) :
    Loading (Bool × Mmu) :=
  if addr < mmu.base then Logged.lift (.error .assertion)
  else if wide addr + size > wide mmu.base + mmu.size then
    match mmuExtend heap mmu ((wide addr + size) - wide mmu.base) with
    | (false, mmu) => return (false, mmu)
    | (true, mmu) => do
        let mmu ← mmuSetpermLogged mmu addr size perm
        return (true, mmu)
  else do
    let mmu ← mmuSetpermLogged { mmu with currVaddr := wide addr + size } addr size perm
    return (true, mmu)

/-- What `mmu_write_from` touches behind its range check: the permissions up to the first that
refuses, and then the bytes, the permissions and the pages that it writes. -/
def Mmu.touchWritten (mmu : Mmu) (vaddr : Vaddr) (size : Size) : Loading Unit :=
  let lo := mmu.offset vaddr
  let hi := mmu.offsetEnd vaddr size
  if mmu.outside vaddr size then return ()
  else do
    touching mmu.permBlock sizeofPerm.toNat lo.toNat
      (Span.tested lo.toNat hi.toNat (permAllows mpermWrite) mmu.perm)
    if mmuCheckAccess mmu vaddr size mpermWrite then do
      touching mmu.dataBlock 1 lo.toNat (lo.toNat + size.toNat)
      touching mmu.permBlock sizeofPerm.toNat lo.toNat hi.toNat
      touching mmu.dirtyBlock 1 (lo / dirtyPageSize).toNat (hi / dirtyPageSize).toNat
    else return ()

def mmuWriteFromLogged (mmu : Mmu) (src : Nat → BitVec 8) (vaddr : Vaddr) (size : Size) :
    Loading (Size × Mmu) := do
  mmu.touchWritten vaddr size
  Logged.lift (mmuWriteFrom mmu src vaddr size)

/-! ## elf_load -/

/-- `elfLoadSegment`.  `mmu_add_memory` and `mmu_setperm` write permissions, and what the
`memcpy` of `mmu_write_from` reads of the file it writes to the memory. -/
def elfLoadSegmentLogged (heap : Heap) (file : ElfFile) (phdr : Nat) (mmu : Mmu) :
    Loading (Bool × Mmu) := do
  let vaddr ← file.readWord (phdr + Elf32Phdr.pVaddr)
  let memsz ← file.readWord (phdr + Elf32Phdr.pMemsz)
  let (added, mmu) ← mmuAddMemoryLogged heap mmu vaddr (wide memsz) (mpermWrite ||| mpermRaw)
  if !added then return (false, mmu)
  else
    writing phdr vaddr.toNat memsz.toNat
    let offset ← file.readWord (phdr + Elf32Phdr.pOffset)
    let filesz ← file.readWord (phdr + Elf32Phdr.pFilesz)
    let (count, mmu) ←
      mmuWriteFromLogged mmu (fun i => file.byte (offset.toNat + i)) vaddr (wide filesz)
    reading offset.toNat count.toNat (file.copied offset.toNat count.toNat)
    writing phdr vaddr.toNat count.toNat
    let flags ← file.readWord (phdr + Elf32Phdr.pFlags)
    let mmu ← mmuSetpermLogged mmu vaddr (wide filesz) (segmentPerm flags)
    writing phdr vaddr.toNat filesz.toNat
    return (true, mmu)

def elfLoadPhdrLogged (heap : Heap) (file : ElfFile) (phdr : Nat) (mmu : Mmu) :
    Loading (Bool × Mmu) := do
  let type ← file.readWord (phdr + Elf32Phdr.pType)
  if type = 1 then elfLoadSegmentLogged heap file phdr mmu else return (true, mmu)

def elfLoadLoopLogged (heaps : Nat → Heap) (file : ElfFile) (phoff : Nat) :
    List Nat → Mmu → Loading (Bool × Mmu)
  | [], mmu => return (true, mmu)
  | i :: rest, mmu => do
      let (loaded, mmu) ← elfLoadPhdrLogged (heaps i) file (phoff + Elf32Phdr.size * i) mmu
      if loaded then elfLoadLoopLogged heaps file phoff rest mmu else return (false, mmu)

def elfLoadLogged (granted : Bool) (heaps : Nat → Heap) (file : ElfFile) (mmu : Mmu) :
    Loading (Option Elf32 × Mmu) := do
  if !granted then return (none, mmu)
  else
    let eiClass ← file.readUchar Elf32Ehdr.eiClass
    if eiClass ≠ 1 then Logged.lift (.error .assertion)
    else
      let eiData ← file.readUchar Elf32Ehdr.eiData
      if eiData ≠ 1 then Logged.lift (.error .assertion)
      else
        let phoff ← file.readWord Elf32Ehdr.ePhoff
        let phnum ← file.readHalf Elf32Ehdr.ePhnum
        let (loaded, mmu) ← elfLoadLoopLogged heaps file phoff.toNat (List.range phnum.toNat) mmu
        if !loaded then return (none, mmu)
        else
          let entry ← file.readWord Elf32Ehdr.eEntry
          return (some { entry := entry }, mmu)

/-! ## Without the log it is the loader -/

section Result

variable {heap : Heap} {heaps : Nat → Heap} {file : ElfFile} {phdr : Nat} {mmu : Mmu}
  {vaddr : Vaddr} {size : Size} {perm : Perm}

theorem mmuSetpermLogged_result :
    (mmuSetpermLogged mmu vaddr size perm).result = mmuSetperm mmu vaddr size perm := by
  unfold mmuSetpermLogged touching
  simp only [Logged.result_bind, Logged.result_lift, Logged.result_entry, Logged.result_pure]
  cases mmuSetperm mmu vaddr size perm with
  | ok m => rfl
  | error e => rfl

theorem mmuAddMemoryLogged_result :
    (mmuAddMemoryLogged heap mmu vaddr size perm).result =
      mmuAddMemory heap mmu vaddr size perm := by
  unfold mmuAddMemoryLogged mmuAddMemory
  cases hextend : mmuExtend heap mmu (wide vaddr + size - wide mmu.base) with
  | mk added m =>
      simp only [Logged.result_ite, Logged.result_lift]
      cases added with
      | false =>
          simp only [Logged.result_pure, Logged.result_bind, mmuSetpermLogged_result]
          rfl
      | true =>
          simp only [Logged.result_pure, Logged.result_bind, mmuSetpermLogged_result]
          rfl

theorem Mmu.touchWritten_result : (mmu.touchWritten vaddr size).result = .ok () := by
  unfold Mmu.touchWritten touching
  simp only [Logged.result_ite, Logged.result_bind, Logged.result_entry, Logged.result_pure,
    Transition.ok_bind, ite_self]

theorem mmuWriteFromLogged_result {src : Nat → BitVec 8} :
    (mmuWriteFromLogged mmu src vaddr size).result = mmuWriteFrom mmu src vaddr size := by
  unfold mmuWriteFromLogged
  rw [Logged.result_bind, Mmu.touchWritten_result]
  rfl

theorem elfLoadSegmentLogged_result :
    (elfLoadSegmentLogged heap file phdr mmu).result = elfLoadSegment heap file phdr mmu := by
  unfold elfLoadSegmentLogged elfLoadSegment ElfFile.readWord reading writing
  simp only [Logged.result_bind, Logged.result_entry, Logged.result_ite, Logged.result_pure,
    mmuAddMemoryLogged_result, mmuWriteFromLogged_result, mmuSetpermLogged_result,
    Transition.ok_bind]
  rfl

theorem elfLoadPhdrLogged_result :
    (elfLoadPhdrLogged heap file phdr mmu).result = elfLoadPhdr heap file phdr mmu := by
  unfold elfLoadPhdrLogged elfLoadPhdr ElfFile.readWord reading
  simp only [Logged.result_bind, Logged.result_entry, Logged.result_ite,
    Logged.result_pure, elfLoadSegmentLogged_result]
  rfl

theorem elfLoadLoopLogged_result {phoff : Nat} {indices : List Nat} :
    (elfLoadLoopLogged heaps file phoff indices mmu).result =
      elfLoadLoop heaps file phoff indices mmu := by
  induction indices generalizing mmu with
  | nil => rfl
  | cons i rest ih =>
      unfold elfLoadLoopLogged elfLoadLoop
      simp only [Logged.result_bind, Logged.result_ite, Logged.result_pure,
        elfLoadPhdrLogged_result, ih]
      rfl

theorem elfLoadLogged_result {granted : Bool} :
    (elfLoadLogged granted heaps file mmu).result = elfLoad granted heaps file mmu := by
  unfold elfLoadLogged elfLoad ElfFile.readUchar ElfFile.readHalf ElfFile.readWord reading
  simp only [Logged.result_bind, Logged.result_entry, Logged.result_lift, Logged.result_ite,
    Logged.result_pure, elfLoadLoopLogged_result]
  rfl

end Result

/-! ## Entries of an array -/

section Entries

variable {heap : Heap} {mmu : Mmu} {vaddr : Vaddr} {size : Size} {perm : Perm}
  {P : LoaderAccess → Prop}

/-- The entry of the log for the permissions of a range. -/
def Mmu.permAccess (mmu : Mmu) (vaddr : Vaddr) (size : Size) : LoaderAccess :=
  .array mmu.permBlock sizeofPerm.toNat (mmu.offset vaddr).toNat (mmu.offsetEnd vaddr size).toNat

theorem mmuSetpermLogged_all :
    (mmuSetpermLogged mmu vaddr size perm).All P ↔
      ∀ m, mmuSetperm mmu vaddr size perm = .ok m → P (mmu.permAccess vaddr size) := by
  have htouch : ∀ m, (Logged.entry (mmu.permAccess vaddr size) (.ok ()) >>= fun _ => pure m :
      Loading Mmu).All P ↔ P (mmu.permAccess vaddr size) := by
    intro m
    rw [Logged.all_bind_of_ok rfl, Logged.all_entry]
    exact and_iff_left (Logged.all_pure _)
  unfold mmuSetpermLogged
  rw [Logged.all_bind]
  refine (and_iff_right (Logged.all_lift _)).trans (forall_congr' fun m => ?_)
  exact imp_congr Iff.rfl (htouch m)

/-- A call that adds the memory touches the permissions of its range, and no other call
touches any. -/
theorem mmuAddMemoryLogged_all :
    (mmuAddMemoryLogged heap mmu vaddr size perm).All P ↔
      ∀ m, mmuAddMemory heap mmu vaddr size perm = .ok (true, m) →
        P ((mmu.grown heap vaddr size).permAccess vaddr size) := by
  have hnothing : ∀ {x : Loading (Bool × Mmu)}, x.All P →
      (∀ m, mmuAddMemory heap mmu vaddr size perm ≠ .ok (true, m)) →
      (x.All P ↔ ∀ m, mmuAddMemory heap mmu vaddr size perm = .ok (true, m) →
        P ((mmu.grown heap vaddr size).permAccess vaddr size)) :=
    fun hall hne => iff_of_true hall fun m h => absurd h (hne m)
  have hadds : ¬ vaddr < mmu.base →
      (mmu.Extends vaddr size → heap.GrantsAll (mmu.extendedSize vaddr size)) →
      ((mmuSetpermLogged (mmu.grown heap vaddr size) vaddr size perm >>= fun m =>
          pure (true, m)).All P ↔
        ∀ m, mmuAddMemory heap mmu vaddr size perm = .ok (true, m) →
          P ((mmu.grown heap vaddr size).permAccess vaddr size)) := by
    intro hlow hgrants
    rw [Logged.all_bind, mmuSetpermLogged_all, mmuAddMemory_grown hlow hgrants]
    refine (and_iff_left fun m _ => Logged.all_pure _).trans (forall_congr' fun m => ?_)
    refine imp_congr ⟨fun h => ?_, fun h => ?_⟩ Iff.rfl
    · rw [h]
      rfl
    · obtain ⟨m', hm', h⟩ := exists_of_bind_ok h
      cases h
      exact hm'
  unfold mmuAddMemoryLogged
  by_cases hlow : vaddr < mmu.base
  · rw [if_pos hlow]
    exact hnothing (Logged.all_lift _) fun m h => (mmuAddMemory_added h).1 hlow
  rw [if_neg hlow]
  by_cases hextends : wide vaddr + size > wide mmu.base + mmu.size
  · rw [if_pos hextends]
    rcases mmuExtend_cases heap mmu (mmu.extendedSize vaddr size) with
      ⟨hgranted, -⟩ | ⟨hrefused, m, -, -, hextend, -⟩
    · have hextend := Mmu.grown_extended hextends hgranted
      unfold Mmu.extendedSize at hextend
      rw [hextend]
      exact hadds hlow fun _ => hgranted
    · unfold Mmu.extendedSize at hextend
      rw [hextend]
      exact hnothing (Logged.all_pure _) fun m h => hrefused ((mmuAddMemory_added h).2 hextends)
  · have hinside := hadds hlow fun h => absurd h hextends
    rw [Mmu.grown_inside hextends] at hinside
    rw [if_neg hextends]
    rw [Mmu.grown_inside hextends]
    exact hinside

end Entries

/-! ## Memory that no access writes -/

/-- The memory is where it was and no smaller, its data are in their block, and the byte of
address `a` is what it was. -/
structure Mmu.Spares (mmu : Mmu) (a : Nat) (mmu' : Mmu) : Prop where
  base : mmu'.base = mmu.base
  size : mmu.size.toNat ≤ mmu'.size.toNat
  sized : mmu'.size.toNat < 2 ^ 63
  block : mmu'.size.toNat ≤ mmu'.dataBlock.toNat
  data : mmu'.data (a - mmu.base.toNat) = mmu.data (a - mmu.base.toNat)

section Spares

variable {heap : Heap} {heaps : Nat → Heap} {file : ElfFile} {phdr a : Nat} {mmu mmu' m : Mmu}

theorem Mmu.Spares.refl (hsized : mmu.size.toNat < 2 ^ 63)
    (hblock : mmu.size.toNat ≤ mmu.dataBlock.toNat) : mmu.Spares a mmu :=
  ⟨rfl, Nat.le_refl _, hsized, hblock, rfl⟩

theorem Mmu.Spares.trans (h : mmu.Spares a mmu') (h' : mmu'.Spares a m) : mmu.Spares a m where
  base := h'.base.trans h.base
  size := Nat.le_trans h.size h'.size
  sized := h'.sized
  block := h'.block
  data := by
    have hdata := h'.data
    rw [h.base] at hdata
    exact hdata.trans h.data

/-- Two memories that differ in the permissions and the flags only. -/
theorem Mmu.Spares.of_eq (h : mmu.Spares a mmu') (hbase : m.base = mmu'.base)
    (hsize : m.size = mmu'.size) (hblock : m.dataBlock = mmu'.dataBlock)
    (hdata : m.data = mmu'.data) : mmu.Spares a m := by
  obtain ⟨base, size, sized, block, data⟩ := h
  rw [← hsize] at size sized
  rw [← hsize, ← hblock] at block
  rw [← hdata] at data
  exact ⟨hbase.trans base, size, sized, block, data⟩

theorem mmuSetperm_spares (h : mmu.Spares a mmu') {vaddr : Vaddr} {size : Size} (perm : Perm) :
    Returns (mmu.Spares a) (mmuSetperm mmu' vaddr size perm) := by
  intro m hm
  rw [(mmuSetperm_ok hm).2]
  exact h.of_eq rfl rfl rfl rfl

/-- What `realloc` keeps of the data is all of them when the memory grows. -/
theorem mmuExtend_spares {size : Size} (hsize : mmu.size.toNat < size.toNat)
    (hsized : size.toNat < 2 ^ 63) (hblock : mmu.size.toNat ≤ mmu.dataBlock.toNat)
    (ha : a - mmu.base.toNat < mmu.size.toNat) :
    mmu.Spares a (mmuExtend heap mmu size).2 := by
  have hkept : reallocated (min mmu.dataBlock.toNat size.toNat) mmu.data heap.data
      (a - mmu.base.toNat) = mmu.data (a - mmu.base.toNat) := reallocated_of_lt (by omega)
  have hle := Nat.le_of_lt hsize
  unfold mmuExtend
  cases heap.grants .data size with
  | false => exact ⟨rfl, Nat.le_refl _, Nat.lt_trans hsize hsized, hblock, rfl⟩
  | true =>
      cases heap.grants .perm size with
      | false => exact ⟨rfl, Nat.le_refl _, Nat.lt_trans hsize hsized, hle, hkept⟩
      | true =>
          cases heap.grants .dirty size with
          | false => exact ⟨rfl, Nat.le_refl _, Nat.lt_trans hsize hsized, hle, hkept⟩
          | true => exact ⟨rfl, hle, hsized, Nat.le_refl _, hkept⟩

theorem mmuAddMemory_spares {vaddr : Vaddr} {memsz : Word} {perm : Perm}
    (hsized : mmu.size.toNat < 2 ^ 63) (hblock : mmu.size.toNat ≤ mmu.dataBlock.toNat)
    (ha : a - mmu.base.toNat < mmu.size.toNat) :
    Returns (fun x => mmu.Spares a x.2)
      (mmuAddMemory heap mmu vaddr (wide memsz) perm) := by
  have hmemsz := wide_lt memsz
  unfold mmuAddMemory
  by_cases hlow : vaddr < mmu.base
  · rw [if_pos hlow]
    exact returns_error _
  rw [if_neg hlow]
  have hbase : mmu.base.toNat ≤ vaddr.toNat := Nat.le_of_not_lt hlow
  by_cases hextends : wide vaddr + wide memsz > wide mmu.base + mmu.size
  · have hreach := (Mmu.extends_iff hsized hmemsz).mp hextends
    have hsize := Mmu.extendedSize_toNat hbase hmemsz
    have hvaddr := vaddr.isLt
    have hgrown := @mmuExtend_spares heap a mmu (mmu.extendedSize vaddr (wide memsz)) (by omega)
      (by omega) hblock ha
    rw [if_pos hextends]
    unfold Mmu.extendedSize at hgrown
    cases hextend : mmuExtend heap mmu (wide vaddr + wide memsz - wide mmu.base) with
    | mk added m =>
        rw [hextend] at hgrown
        cases added with
        | false => exact returns_ok hgrown
        | true =>
            exact returns_bind (mmuSetperm_spares hgrown perm) fun _ h =>
              returns_ok h
  · rw [if_neg hextends]
    have hsame : mmu.Spares a { mmu with currVaddr := wide vaddr + wide memsz } :=
      (Mmu.Spares.refl hsized hblock).of_eq rfl rfl rfl rfl
    exact returns_bind (mmuSetperm_spares hsame perm) fun _ h => returns_ok h

/-- A write changes the bytes that it counts. -/
theorem mmuWriteFrom_spares (h : mmu.Spares a mmu') (hlow : mmu.base.toNat ≤ a)
    {src : Nat → BitVec 8} {vaddr : Vaddr} {filesz : Word} :
    Returns
      (fun x => a ∉ Set.Ico vaddr.toNat (vaddr.toNat + x.1.toNat) → mmu.Spares a x.2)
      (mmuWriteFrom mmu' src vaddr (wide filesz)) := by
  have hfilesz := wide_lt filesz
  rintro ⟨count, m⟩ hm hout
  by_cases haccepts : mmu'.Accepts vaddr (wide filesz) mpermWrite
  · have hbase := haccepts.base_le
    have hsame := h.base
    rw [mmuWriteFrom_accepted (by omega) haccepts, Mmu.written_word hbase] at hm
    cases hm
    refine ⟨hsame, h.size, h.sized, h.block, Eq.trans (Span.copy_of_not_mem ?_) h.data⟩
    simp only [wide_toNat, Set.mem_Ico] at hout
    rw [hsame] at hbase ⊢
    omega
  · obtain ⟨state, -, hrefused⟩ := @mmuWriteFrom_refused mmu' src vaddr _ (by omega) haccepts
    cases hm.symm.trans hrefused
    exact h.of_eq rfl rfl rfl rfl

/-- The access does not write the address. -/
def LoaderAccess.Spares (a : Nat) (access : LoaderAccess) : Prop := a ∉ access.written

theorem elfLoadSegmentLogged_spares (hsized : mmu.size.toNat < 2 ^ 63)
    (hblock : mmu.size.toNat ≤ mmu.dataBlock.toNat) (hlow : mmu.base.toNat ≤ a)
    (ha : a - mmu.base.toNat < mmu.size.toNat) :
    (elfLoadSegmentLogged heap file phdr mmu).Vouches (LoaderAccess.Spares a)
      fun x => mmu.Spares a x.2 := by
  refine Logged.vouches_bind (Logged.vouches_any _) fun vaddr _ => ?_
  refine Logged.vouches_bind (Logged.vouches_any _) fun memsz _ => ?_
  have hadd : (mmuAddMemoryLogged heap mmu vaddr (wide memsz) (mpermWrite ||| mpermRaw)).Vouches
      (LoaderAccess.Spares a) fun x => mmu.Spares a x.2 :=
    Logged.vouches_result
      (mmuAddMemoryLogged_result ▸ mmuAddMemory_spares hsized hblock ha)
  refine Logged.vouches_bind hadd fun ⟨added, m⟩ hm => ?_
  refine Logged.vouches_ite (Logged.vouches_pure hm) ?_
  refine Logged.vouches_bind (Logged.vouches_any _) fun _ _ => ?_
  refine Logged.vouches_bind (Logged.vouches_any _) fun offset _ => ?_
  refine Logged.vouches_bind (Logged.vouches_any _) fun filesz _ => ?_
  have hwrite := @mmuWriteFrom_spares a mmu m hm hlow
    (fun i => file.byte (offset.toNat + i)) vaddr filesz
  refine Logged.vouches_bind
    (Logged.vouches_result (mmuWriteFromLogged_result ▸ hwrite)) fun ⟨count, w⟩ hw => ?_
  refine Logged.vouches_bind (Logged.vouches_any _) fun _ _ => ?_
  have hspares : (writing phdr vaddr.toNat count.toNat).Vouches (LoaderAccess.Spares a)
      fun _ => mmu.Spares a w := Logged.vouches_entry fun hout => returns_ok (hw hout)
  refine Logged.vouches_bind hspares fun _ hw' => ?_
  refine Logged.vouches_bind (Logged.vouches_any _) fun flags _ => ?_
  have hset := @mmuSetperm_spares a mmu w hw' vaddr (wide filesz) (segmentPerm flags)
  refine Logged.vouches_bind
    (Logged.vouches_result (mmuSetpermLogged_result ▸ hset)) fun m' hm' => ?_
  exact Logged.vouches_bind (Logged.vouches_any _) fun _ _ => Logged.vouches_pure hm'

theorem elfLoadPhdrLogged_spares (hsized : mmu.size.toNat < 2 ^ 63)
    (hblock : mmu.size.toNat ≤ mmu.dataBlock.toNat) (hlow : mmu.base.toNat ≤ a)
    (ha : a - mmu.base.toNat < mmu.size.toNat) :
    (elfLoadPhdrLogged heap file phdr mmu).Vouches (LoaderAccess.Spares a)
      fun x => mmu.Spares a x.2 :=
  Logged.vouches_bind (Logged.vouches_any _) fun _ _ =>
    Logged.vouches_ite (elfLoadSegmentLogged_spares hsized hblock hlow ha)
      (Logged.vouches_pure (Mmu.Spares.refl hsized hblock))

theorem elfLoadLoopLogged_spares {phoff : Nat} {indices : List Nat}
    (hsized : mmu.size.toNat < 2 ^ 63) (hblock : mmu.size.toNat ≤ mmu.dataBlock.toNat)
    (hlow : mmu.base.toNat ≤ a) (ha : a - mmu.base.toNat < mmu.size.toNat) :
    (elfLoadLoopLogged heaps file phoff indices mmu).Vouches (LoaderAccess.Spares a)
      fun x => mmu.Spares a x.2 := by
  induction indices generalizing mmu with
  | nil => exact Logged.vouches_pure (Mmu.Spares.refl hsized hblock)
  | cons i rest ih =>
      refine Logged.vouches_bind (elfLoadPhdrLogged_spares hsized hblock hlow ha)
        fun ⟨loaded, m⟩ hm => ?_
      refine Logged.vouches_ite ?_ (Logged.vouches_pure hm)
      have hsame := hm.base
      have hsize := hm.size
      have hrest := ih hm.sized hm.block (by rwa [hsame]) (by rw [hsame]; omega)
      exact fun hall x hx => hm.trans (hrest hall x hx)

/-- An address of the memory that the log does not name keeps its byte. -/
theorem elfLoadLogged_spares {granted : Bool} (hsized : mmu.size.toNat < 2 ^ 63)
    (hblock : mmu.size.toNat ≤ mmu.dataBlock.toNat) (hlow : mmu.base.toNat ≤ a)
    (ha : a - mmu.base.toNat < mmu.size.toNat) :
    (elfLoadLogged granted heaps file mmu).Vouches (LoaderAccess.Spares a)
      fun x => mmu.Spares a x.2 := by
  have hsame : mmu.Spares a mmu := Mmu.Spares.refl hsized hblock
  have herror : ∀ e, (Logged.lift (.error e) : Loading (Option Elf32 × Mmu)).Vouches
      (LoaderAccess.Spares a) fun x => mmu.Spares a x.2 :=
    fun e => Logged.vouches_lift (returns_error e)
  refine Logged.vouches_ite (Logged.vouches_pure hsame) ?_
  refine Logged.vouches_bind (Logged.vouches_any _) fun _ _ => ?_
  refine Logged.vouches_ite (herror _) ?_
  refine Logged.vouches_bind (Logged.vouches_any _) fun _ _ => ?_
  refine Logged.vouches_ite (herror _) ?_
  refine Logged.vouches_bind (Logged.vouches_any _) fun _ _ => ?_
  refine Logged.vouches_bind (Logged.vouches_any _) fun _ _ => ?_
  refine Logged.vouches_bind (elfLoadLoopLogged_spares hsized hblock hlow ha)
    fun ⟨loaded, m⟩ hm => ?_
  refine Logged.vouches_ite (Logged.vouches_pure hm) ?_
  exact Logged.vouches_bind (Logged.vouches_any _) fun _ _ => Logged.vouches_pure hm

/-- The bytes of the memory that `elf_load` does not say it writes are what they were. -/
theorem elfLoad_unwritten {granted : Bool} {r : Option Elf32} (hsized : mmu.size.toNat < 2 ^ 63)
    (hblock : mmu.size.toNat ≤ mmu.dataBlock.toNat) (hlow : mmu.base.toNat ≤ a)
    (ha : a - mmu.base.toNat < mmu.size.toNat)
    (hout : ∀ access ∈ (elfLoadLogged granted heaps file mmu).log, a ∉ access.written)
    (h : elfLoad granted heaps file mmu = .ok (r, mmu')) :
    mmu'.data (a - mmu.base.toNat) = mmu.data (a - mmu.base.toNat) := by
  rw [← elfLoadLogged_result] at h
  exact (elfLoadLogged_spares hsized hblock hlow ha hout _ h).data

end Spares

end CRiscV
