/-
What can be read of a loaded file: the bytes of its readable segments, and nothing
of the memory behind them.
-/
import CRiscV.Emulator.Image

namespace CRiscV

/-! ## Permissions -/

theorem segmentPerm_readable {f : Word} : (segmentPerm f).Readable ↔ f &&& 4 ≠ 0 := by
  unfold segmentPerm
  constructor
  · intro h
    by_contra hr
    rw [if_neg (not_not_intro hr)] at h
    revert h
    split_ifs <;> decide
  · intro hr
    rw [if_pos hr]
    split_ifs <;> decide

theorem raw_not_readable : ¬ (mpermWrite ||| mpermRaw).Readable := by decide

section Load

variable {file : ElfFile} {heaps : Nat → Heap} {mmu mmu' : Mmu} {i a : Nat}

/-! ## The bytes of the file -/

/-- Behind the loop the bytes of a segment are those of the file, with the permission of
its flags. -/
theorem ElfFile.Inside.image_fileBytes (hinside : file.Inside mmu) (hfile : file.WellFormed)
    (hapart : file.Apart) (hsized : mmu.size.toNat < 2 ^ 63) (hi : i < file.phnum)
    (hloads : (file.phdr i).Loads) (ha : a ∈ (file.phdr i).fileBytes) :
    (file.image heaps mmu file.phnum).data (a - mmu.base.toNat) =
        file.byte ((file.phdr i).offset.toNat + (a - (file.phdr i).vaddr.toNat)) ∧
      (file.image heaps mmu file.phnum).perm (a - mmu.base.toNat) =
        segmentPerm (file.phdr i).flags := by
  have hlow := Nat.le_trans (hinside i hi hloads).1 ha.1
  have hbase : ∀ j < file.phnum, (file.image heaps mmu j).base = mmu.base := fun j hj =>
    ((hinside.placed hsized (Nat.le_of_lt hj)).image_layout hsized).1
  have hkept : ∀ j < file.phnum, (file.phdr j).Loads →
      ¬ (file.image heaps mmu j).Extends (file.phdr j).vaddr (wide (file.phdr j).memsz) := by
    intro j hj hloads'
    have hreach := Phdr.endOffset_le (hinside j hj hloads')
    rw [← hinside.extent_eq (Nat.le_of_lt hj)] at hreach
    exact file.not_extends hsized (hinside.placed hsized (Nat.le_of_lt hj)) hreach
  have hgranted : ∀ j < file.phnum, (file.phdr j).Loads →
      (file.phdr j).Granted (heaps j) (file.image heaps mmu j) :=
    fun j hj hloads' hextends => absurd hextends (hkept j hj hloads')
  refine @ElfFile.image_settled file heaps mmu file.phnum
    (fun m => m.data (a - mmu.base.toNat) = _ ∧ m.perm (a - mmu.base.toNat) = _) i hi hloads ?_ ?_
  · have hsegment := (hinside i hi hloads).1
    exact ⟨Mmu.loaded_data_of_mem (hbase i hi) (hgranted i hi hloads) hsegment ha,
      Mmu.loaded_perm_of_mem (hbase i hi) (hgranted i hi hloads) hsegment ha⟩
  · rintro j hij hj hloads' ⟨hdata, hperm⟩
    have hsegment := (hinside j hj hloads').1
    have hsizes := hfile.sizes j hj hloads'
    have hout := hapart.not_mem hi hj (Nat.ne_of_lt hij) hloads hloads'
      (Phdr.fileBytes_subset (hfile.sizes i hi hloads) ha)
    have hout' := fun hmem => hout (Phdr.fileBytes_subset hsizes hmem)
    constructor
    · rw [Mmu.loaded_data_of_not_mem (hbase j hj) (hgranted j hj hloads') hsegment hlow hout',
        Mmu.grown_inside (hkept j hj hloads')]
      exact hdata
    · rw [Mmu.loaded_perm_of_not_mem (hbase j hj) (hgranted j hj hloads') hsegment hsizes hlow hout,
        Mmu.grown_inside (hkept j hj hloads')]
      exact hperm

/-- Headers of other types take no part in the loop. -/
theorem elfLoadLoop_filter (hfile : file.WellFormed) {is : List Nat}
    (his : ∀ i ∈ is, i < file.phnum) (mmu : Mmu) :
    elfLoadLoop heaps file file.phoff (is.filter fun i => (file.phdr i).Loads) mmu =
      elfLoadLoop heaps file file.phoff is mmu := by
  induction is generalizing mmu with
  | nil => rfl
  | cons i is ih =>
      have hi := his i List.mem_cons_self
      have hrest := fun m => ih (fun j hj => his j (List.mem_cons_of_mem i hj)) m
      by_cases hloads : (file.phdr i).Loads
      · rw [List.filter_cons_of_pos (by simpa using hloads), elfLoadLoop, elfLoadLoop]
        simp only [hrest]
      · rw [List.filter_cons_of_neg (by simpa using hloads), hrest, elfLoadLoop,
          elfLoadPhdr_eq hfile hi, if_neg hloads]
        rfl

/-- Any part of the file bytes of a readable segment reads back. -/
theorem ElfFile.Inside.read_image (hinside : file.Inside mmu) (hfile : file.WellFormed)
    (hapart : file.Apart) (hsized : mmu.size.toNat < 2 ^ 63) (hi : i < file.phnum)
    (hloads : (file.phdr i).Loads) (hreadable : (file.phdr i).Readable) {v : Vaddr} {n : Size}
    (hstart : (file.phdr i).vaddr.toNat ≤ v.toNat)
    (hend : v.toNat + n.toNat ≤ (file.phdr i).vaddr.toNat + (file.phdr i).filesz.toNat)
    (dst : Nat → BitVec 8) :
    mmuReadInto (file.image heaps mmu file.phnum) dst v n =
      (n,
        Span.copy 0 n.toNat
          (fun k => file.byte
            ((file.phdr i).offset.toNat + (v.toNat - (file.phdr i).vaddr.toNat) + k)) dst,
        { file.image heaps mmu file.phnum with state := .ok }) := by
  have hplaced := @ElfFile.Inside.placed file heaps mmu _ hinside hsized (Nat.le_refl _)
  obtain ⟨hbase, hextent⟩ := hplaced.image_layout hsized
  rw [hinside.extent_eq (Nat.le_refl _)] at hextent
  have hsize : (file.image heaps mmu file.phnum).size.toNat = mmu.size.toNat :=
    congrArg Extent.size hextent
  obtain ⟨hlow, hhigh⟩ := hinside i hi hloads
  have hsizes := hfile.sizes i hi hloads
  have hfilesz := (file.phdr i).filesz.isLt
  have hn : n.toNat < 2 ^ 63 := by omega
  have hindex : ∀ k, ((file.image heaps mmu file.phnum).offset v).toNat + k =
      v.toNat + k - mmu.base.toNat := by
    intro k
    rw [Mmu.offset_toNat (by rw [hbase]; omega), hbase]
    omega
  have hbytes := fun k (hk : k < n.toNat) =>
    @ElfFile.Inside.image_fileBytes file heaps mmu i (v.toNat + k) hinside hfile hapart hsized hi
      hloads ⟨by omega, by omega⟩
  rw [mmuReadInto_accepted]
  · congr 2
    apply Span.copy_congr
    intro k hk
    unfold Mmu.byteFrom
    rw [hindex, (hbytes k hk).1]
    congr 1
    omega
  · rw [Mmu.accepts_read_iff (by omega) hn]
    constructor
    · unfold Mmu.Holds
      rw [hbase, hsize]
      omega
    · intro k hk
      unfold Mmu.permFrom
      rw [hindex, (hbytes k hk).2]
      exact segmentPerm_readable.mpr hreadable

end Load

/-! ## A file for concrete runs -/

def wordBytes (v : Word) : List (BitVec 8) := (List.range 4).map (Bytes.byteAt v)

def halfBytes (v : BitVec 16) : List (BitVec 8) := (List.range 2).map (Bytes.byteAt v)

/-- A note, and a segment at the start of RAM with the flag `PF_R` only: eight words from
the file, a `nop` first, and one word behind them. -/
def noteFile : ElfFile where
  bytes :=
    [0x7f, 0x45, 0x4c, 0x46, 1, 1, 1, 0, 0, 0, 0, 0, 0, 0, 0, 0] ++
    halfBytes 2 ++ halfBytes 0xf3 ++ wordBytes 1 ++
    wordBytes 0x10000 ++ wordBytes 52 ++ wordBytes 0 ++ wordBytes 0 ++
    halfBytes 52 ++ halfBytes 32 ++ halfBytes 2 ++ halfBytes 40 ++ halfBytes 0 ++ halfBytes 0 ++
    [4, 116, 0x10000, 0x10000, 32, 32, 4, 4].flatMap wordBytes ++
    [1, 116, 0x10000, 0x10000, 32, 36, 4, 4].flatMap wordBytes ++
    [0x00000013, 1, 2, 3, 4, 5, 6, 7].flatMap wordBytes

/-- One readable segment at the offset 84, with two words in the file. -/
def segmentFile (vaddr : Vaddr) (filesz memsz : Word) : ElfFile where
  bytes :=
    [0x7f, 0x45, 0x4c, 0x46, 1, 1, 1, 0, 0, 0, 0, 0, 0, 0, 0, 0] ++
    halfBytes 2 ++ halfBytes 0xf3 ++ wordBytes 1 ++
    wordBytes 0x10000 ++ wordBytes 52 ++ wordBytes 0 ++ wordBytes 0 ++
    halfBytes 52 ++ halfBytes 32 ++ halfBytes 1 ++ halfBytes 40 ++ halfBytes 0 ++ halfBytes 0 ++
    [1, 84, vaddr, vaddr, filesz, memsz, 4, 4].flatMap wordBytes ++
    wordBytes 0x00000013 ++ wordBytes 0x00000013

theorem wordBytes_length (v : Word) : (wordBytes v).length = 4 := rfl

theorem halfBytes_length (v : BitVec 16) : (halfBytes v).length = 2 := rfl

theorem words_length (vs : List Word) : (vs.flatMap wordBytes).length = 4 * vs.length := by
  induction vs with
  | nil => rfl
  | cons v vs ih =>
      rw [List.flatMap_cons, List.length_append, wordBytes_length, ih, List.length_cons]
      omega

theorem noteFile_size : noteFile.size = 148 := by
  unfold ElfFile.size noteFile
  simp only [List.length_append, wordBytes_length, halfBytes_length, words_length]
  rfl

theorem segmentFile_size (vaddr : Vaddr) (filesz memsz : Word) :
    (segmentFile vaddr filesz memsz).size = 92 := by
  unfold ElfFile.size segmentFile
  simp only [List.length_append, wordBytes_length, halfBytes_length, words_length]
  rfl

theorem noteFile_phoff : noteFile.phoff = 52 := rfl

theorem noteFile_phnum : noteFile.phnum = 2 := rfl

theorem noteFile_one : 1 < noteFile.phnum := by
  rw [noteFile_phnum]
  decide

theorem noteFile_entry : noteFile.entry = 0x10000 := rfl

theorem noteFile_note : ¬ (noteFile.phdr 0).Loads := by
  have htype : (noteFile.phdr 0).type = 4 := rfl
  unfold Phdr.Loads
  rw [htype]
  decide

theorem noteFile_segment : noteFile.phdr 1 =
    { type := 1, offset := 116, vaddr := 0x10000, filesz := 32, memsz := 36, flags := 4 } := rfl

theorem noteFile_segment_loads : (noteFile.phdr 1).Loads := by
  rw [noteFile_segment]
  rfl

theorem noteFile_loads {i : Nat} (hi : i < noteFile.phnum) (hloads : (noteFile.phdr i).Loads) :
    i = 1 := by
  rw [noteFile_phnum] at hi
  rcases Nat.lt_or_eq_of_le (Nat.le_of_lt_succ hi) with hlt | heq
  · rw [Nat.lt_one_iff] at hlt
    rw [hlt] at hloads
    exact absurd hloads noteFile_note
  · exact heq

theorem noteFile_wellFormed : noteFile.WellFormed where
  header := by
    rw [noteFile_size]
    decide
  eiClass := rfl
  eiData := rfl
  table := by
    rw [noteFile_size, noteFile_phoff, noteFile_phnum]
    decide
  sizes := by
    intro i hi hloads
    rw [noteFile_loads hi hloads, noteFile_segment]
    decide
  contents := by
    intro i hi hloads
    rw [noteFile_loads hi hloads, noteFile_segment, noteFile_size]
    decide

theorem noteFile_apart : noteFile.Apart := by
  intro i hi j hj hne hloads hloads'
  exact absurd ((noteFile_loads hi hloads).trans (noteFile_loads hj hloads').symm) hne

theorem noteFile_inside {mmu : Mmu} (hfresh : mmu.Fresh 0x10000 0x1000) :
    noteFile.Inside mmu := by
  intro i hi hloads
  unfold Mmu.Holds
  rw [noteFile_loads hi hloads, noteFile_segment, hfresh.base, hfresh.size]
  decide

/-- Fresh memory at the start of RAM, behind the load of the file. -/
structure Mmu.HoldsNote (mmu : Mmu) : Prop where
  base : mmu.base = 0x10000
  size : mmu.size = 0x1000
  bytes : ∀ k < 32, mmu.byteFrom 0x10000 k = noteFile.byte (116 + k)
  perms : ∀ k < 32, mmu.permFrom 0x10000 k = mpermRead ||| mpermRaw

theorem noteFile_loaded {mmu : Mmu} (hfresh : mmu.Fresh 0x10000 0x1000) :
    ∃ mmu', elfLoad true (fun _ => generousHeap) noteFile mmu =
      .ok (some { entry := 0x10000 }, mmu') ∧ mmu'.HoldsNote := by
  have hsized : mmu.size.toNat < 2 ^ 63 := hfresh.size ▸ hfresh.sized
  have hinside := noteFile_inside hfresh
  have hplaced := @ElfFile.Inside.placed noteFile (fun _ => generousHeap) mmu _ hinside hsized
    (Nat.le_refl _)
  have hload := (elfLoad_iff noteFile_wellFormed hsized).mpr ⟨rfl, hplaced, rfl, rfl⟩
  rw [noteFile_entry] at hload
  obtain ⟨hbase, hextent⟩ := hplaced.image_layout hsized
  rw [hinside.extent_eq (Nat.le_refl _)] at hextent
  have hsize := BitVec.eq_of_toNat_eq (congrArg Extent.size hextent)
  have hsegment : ∀ k < 32,
      (noteFile.image (fun _ => generousHeap) mmu noteFile.phnum).data k =
          noteFile.byte (116 + k) ∧
        (noteFile.image (fun _ => generousHeap) mmu noteFile.phnum).perm k =
          mpermRead ||| mpermRaw := by
    intro k hk
    have hmem : 0x10000 + k ∈ (noteFile.phdr 1).fileBytes := by
      rw [noteFile_segment]
      exact ⟨Nat.le_add_right _ _, Nat.add_lt_add_left hk _⟩
    obtain ⟨hdata, hperm⟩ := @ElfFile.Inside.image_fileBytes noteFile (fun _ => generousHeap) mmu 1
      _ hinside noteFile_wellFormed noteFile_apart hsized noteFile_one
      noteFile_segment_loads hmem
    have hindex : 0x10000 + k - (0x10000 : Vaddr).toNat = k := Nat.add_sub_cancel_left _ _
    rw [hfresh.base, noteFile_segment, hindex] at hdata hperm
    exact ⟨hdata, hperm⟩
  have hoffset : ∀ k, ((noteFile.image (fun _ => generousHeap) mmu noteFile.phnum).offset
      0x10000).toNat + k = k := by
    intro k
    have hstart := hbase.trans hfresh.base
    rw [Mmu.offset_toNat (Nat.le_of_eq (congrArg BitVec.toNat hstart)), hstart, Nat.sub_self,
      Nat.zero_add]
  refine ⟨_, hload, hbase.trans hfresh.base, hsize.trans hfresh.size, ?_, ?_⟩
  · intro k hk
    unfold Mmu.byteFrom
    rw [hoffset]
    exact (hsegment k hk).1
  · intro k hk
    unfold Mmu.permFrom
    rw [hoffset]
    exact (hsegment k hk).2

theorem Mmu.HoldsNote.holds {mmu : Mmu} (h : mmu.HoldsNote) {n : Nat} (hn : n ≤ 0x1000) :
    mmu.Holds 0x10000 n := by
  unfold Mmu.Holds
  rw [h.base, h.size]
  have hbase : (0x10000 : Vaddr).toNat = 0x10000 := rfl
  have hsize : (0x1000 : Size).toNat = 0x1000 := rfl
  omega

theorem Mmu.HoldsNote.sized {mmu : Mmu} (h : mmu.HoldsNote) : mmu.size.toNat < 2 ^ 63 := by
  rw [h.size]
  decide

theorem generousHeap_init : ∃ mmu, mmuInit generousHeap 0x10000 0x1000 = .ok (some mmu) :=
  ⟨_, rfl⟩

/-! ## The image -/

/-- The loaded image is the file's: every part of the file bytes of a readable segment
reads back, the other headers take no part, and the entry is the file's. -/
theorem elfLoad_image {heap : Heap} {base : Vaddr} {size : Size} {mmu : Mmu} {heaps : Nat → Heap}
    {file : ElfFile} (hinit : mmuInit heap base size = .ok (some mmu)) (hfile : file.WellFormed)
    (hapart : file.Apart) (hinside : file.Inside mmu) :
    ∃ mmu', elfLoad true heaps file mmu = .ok (some { entry := file.entry }, mmu') ∧
      (∀ i < file.phnum, (file.phdr i).Loads → (file.phdr i).Readable →
        ∀ (v : Vaddr) (n : Size), (file.phdr i).vaddr.toNat ≤ v.toNat →
          v.toNat + n.toNat ≤ (file.phdr i).vaddr.toNat + (file.phdr i).filesz.toNat →
          ∀ dst, mmuReadInto mmu' dst v n =
            (n,
              Span.copy 0 n.toNat
                (fun k => file.byte
                  ((file.phdr i).offset.toNat + (v.toNat - (file.phdr i).vaddr.toNat) + k)) dst,
              { mmu' with state := .ok })) ∧
      elfLoadLoop heaps file file.phoff
        ((List.range file.phnum).filter fun i => (file.phdr i).Loads) mmu = .ok (true, mmu') := by
  have hfresh := mmuInit_fresh hinit
  have hsized : mmu.size.toNat < 2 ^ 63 := hfresh.size ▸ hfresh.sized
  have hplaced := @ElfFile.Inside.placed file heaps mmu _ hinside hsized (Nat.le_refl _)
  refine ⟨file.image heaps mmu file.phnum,
    (elfLoad_iff hfile hsized).mpr ⟨rfl, hplaced, rfl, rfl⟩, ?_, ?_⟩
  · intro i hi hloads hreadable v n hstart hend dst
    exact hinside.read_image hfile hapart hsized hi hloads hreadable hstart hend dst
  · rw [elfLoadLoop_filter hfile (fun i hi => List.mem_range.mp hi), List.range_eq_range']
    have hloop := @elfLoadLoop_iff file heaps mmu (file.image heaps mmu file.phnum) 0 hfile hsized
      file.phnum (by omega) fun i hi => absurd hi (Nat.not_lt_zero i)
    rw [Nat.zero_add] at hloop
    exact hloop.mpr ⟨hplaced, rfl⟩

theorem noteFile_image : ∃ mmu mmu' : Mmu,
    mmuInit generousHeap 0x10000 0x1000 = .ok (some mmu) ∧
    elfLoad true (fun _ => generousHeap) noteFile mmu = .ok (some { entry := 0x10000 }, mmu') ∧
    ∀ dst, mmuReadInto mmu' dst 0x10004 8 =
      (8, Span.copy 0 8 (fun k => noteFile.byte (120 + k)) dst, { mmu' with state := .ok }) := by
  obtain ⟨mmu, hinit⟩ := generousHeap_init
  have hinside := noteFile_inside (mmuInit_fresh hinit)
  obtain ⟨mmu', hload, hread, -⟩ := @elfLoad_image _ _ _ _ (fun _ => generousHeap) _ hinit
    noteFile_wellFormed noteFile_apart hinside
  have hpart := hread 1 noteFile_one
  rw [noteFile_segment] at hpart
  rw [noteFile_entry] at hload
  exact ⟨mmu, mmu', hinit, hload,
    fun dst => hpart rfl (by decide) 0x10004 8 (by decide) (by decide) dst⟩

/-! ## The memory behind the bytes of the file -/

/-- Every byte between the file bytes and the end of a readable segment reads as zero. -/
def ElfFile.TailsZero (file : ElfFile) (mmu : Mmu) : Prop :=
  ∀ i < file.phnum, (file.phdr i).Loads → (file.phdr i).Readable →
    ∀ v : Vaddr, v.toNat ∈ (file.phdr i).tail →
      ∀ dst, ∃ mmu', mmuReadInto mmu dst v 1 = (1, Span.copy 0 1 (fun _ => 0) dst, mmu')

section Tail

variable {file : ElfFile} {heaps : Nat → Heap} {mmu : Mmu} {i a : Nat}

/-- A turn of the loop keeps the permission of a byte outside its segment, or leaves what
the host had there. -/
theorem ElfFile.Placed.turn_perm (hplaced : file.Placed heaps mmu file.phnum)
    (hsized : mmu.size.toNat < 2 ^ 63) (hfile : file.WellFormed) (hi : i < file.phnum)
    (hloads : (file.phdr i).Loads) (hlow : mmu.base.toNat ≤ a) (ha : a ∉ (file.phdr i).memory) :
    ((file.image heaps mmu i).loaded (heaps i) file (file.phdr i)).perm (a - mmu.base.toNat) =
        (file.image heaps mmu i).perm (a - mmu.base.toNat) ∨
      ((file.image heaps mmu i).loaded (heaps i) file (file.phdr i)).perm (a - mmu.base.toNat) =
        (heaps i).perm (a - mmu.base.toNat) := by
  obtain ⟨hsegment, hgranted⟩ := hplaced i hi hloads
  have hbase := ((hplaced.mono (Nat.le_of_lt hi)).image_layout hsized).1
  rw [Mmu.loaded_perm_of_not_mem hbase hgranted hsegment (hfile.sizes i hi hloads) hlow ha]
  exact Mmu.grown_perm_cases hgranted

/-- On a host that leaves no readable permission behind, no byte of a tail is readable. -/
theorem ElfFile.Placed.tail_unreadable (hplaced : file.Placed heaps mmu file.phnum)
    (hsized : mmu.size.toNat < 2 ^ 63) (hfile : file.WellFormed) (hapart : file.Apart)
    (hhost : ∀ j x, ¬ ((heaps j).perm x).Readable) (hi : i < file.phnum)
    (hloads : (file.phdr i).Loads) (ha : a ∈ (file.phdr i).tail) :
    ¬ ((file.image heaps mmu file.phnum).perm (a - mmu.base.toNat)).Readable := by
  have hmem := (file.phdr i).tail_subset ha
  have hbase := ((hplaced.mono (Nat.le_of_lt hi)).image_layout hsized).1
  obtain ⟨hsegment, hgranted⟩ := hplaced i hi hloads
  refine @ElfFile.image_settled file heaps mmu file.phnum
    (fun m => ¬ (m.perm (a - mmu.base.toNat)).Readable) i hi hloads ?_ ?_
  · rw [Mmu.loaded_perm_of_tail hbase hgranted hsegment ha]
    exact raw_not_readable
  · intro j hij hj hloads' hperm
    have hout := hapart.not_mem hi hj (Nat.ne_of_lt hij) hloads hloads' hmem
    rcases hplaced.turn_perm hsized hfile hj hloads' (Nat.le_trans hsegment hmem.1) hout with
      hkept | hleft
    · rwa [hkept]
    · rw [hleft]
      exact hhost j _

/-- The MMU refuses to read them. -/
theorem ElfFile.Placed.tail_refused (hplaced : file.Placed heaps mmu file.phnum)
    (hsized : mmu.size.toNat < 2 ^ 63) (hfile : file.WellFormed) (hapart : file.Apart)
    (hhost : ∀ j x, ¬ ((heaps j).perm x).Readable) (hi : i < file.phnum)
    (hloads : (file.phdr i).Loads) {v : Vaddr} (hv : v.toNat ∈ (file.phdr i).tail)
    (dst : Nat → BitVec 8) :
    ∃ state, state ≠ .ok ∧
      mmuReadInto (file.image heaps mmu file.phnum) dst v 1 =
        (0, dst, { file.image heaps mmu file.phnum with state := state }) := by
  have hbase := (hplaced.image_layout hsized).1
  have hsegment := (hplaced i hi hloads).1
  have hone : (1 : Size).toNat = 1 := rfl
  apply mmuReadInto_refused
  intro haccepts
  have hreadable :=
    ((Mmu.accepts_read_iff (hplaced.image_size hsized) (by omega)).mp haccepts).2 0 (by omega)
  unfold Mmu.permFrom at hreadable
  have hmem := (file.phdr i).tail_subset hv
  rw [Mmu.offset_toNat (by rw [hbase]; exact Nat.le_trans hsegment hmem.1), hbase, Nat.add_zero]
    at hreadable
  exact hplaced.tail_unreadable hsized hfile hapart hhost hi hloads hv hreadable

end Tail

theorem generousHeap_generous : generousHeap.Generous := fun _ _ hn => decide_eq_true hn

/-- The tails of the readable segments read as zero, on every host that loads the file,
exactly when no readable segment has a tail at a 32-bit address. -/
theorem tailsZero_iff {file : ElfFile} {mmu : Mmu} (hsized : mmu.size.toNat < 2 ^ 63)
    (hfile : file.WellFormed) (hapart : file.Apart) (hstarts : file.StartsAt mmu.base) :
    (∀ heaps elf mmu', elfLoad true heaps file mmu = .ok (some elf, mmu') →
        file.TailsZero mmu') ↔
      ∀ i < file.phnum, (file.phdr i).Loads → (file.phdr i).Readable →
        (file.phdr i).memsz.toNat ≤ (file.phdr i).filesz.toNat ∨
          2 ^ 32 ≤ (file.phdr i).vaddr.toNat + (file.phdr i).filesz.toNat := by
  constructor
  · intro hzero i hi hloads hreadable
    by_contra hnot
    rw [not_or, Nat.not_le, Nat.not_le] at hnot
    obtain ⟨htail, haddr⟩ := hnot
    have hplaced := @ElfFile.StartsAt.placed file (fun _ => generousHeap) mmu _ hstarts hsized
      (fun _ => generousHeap_generous) (Nat.le_refl _)
    have hload := (elfLoad_iff hfile hsized).mpr ⟨rfl, hplaced, rfl, rfl⟩
    have hfirst : (BitVec.ofNat 32
        ((file.phdr i).vaddr.toNat + (file.phdr i).filesz.toNat)).toNat =
        (file.phdr i).vaddr.toNat + (file.phdr i).filesz.toNat := by
      rw [BitVec.toNat_ofNat, Nat.mod_eq_of_lt haddr]
    have hmem : _ ∈ (file.phdr i).tail := ⟨Nat.le_of_eq hfirst.symm, by omega⟩
    obtain ⟨mmu', hread⟩ := hzero _ _ _ hload i hi hloads hreadable _ hmem fun _ => 0
    obtain ⟨state, -, hrefused⟩ := hplaced.tail_refused hsized hfile hapart
      (fun _ _ => (by decide : ¬ (0 : Perm).Readable)) hi hloads hmem fun _ => 0
    rw [hrefused] at hread
    cases hread
  · intro hnone heaps elf mmu' _ i hi hloads hreadable v hv
    obtain ⟨hlo, hhi⟩ := hv
    have hlt := v.isLt
    have := hnone i hi hloads hreadable
    omega

theorem noteFile_startsAt {mmu : Mmu} (hfresh : mmu.Fresh 0x10000 0x1000) :
    noteFile.StartsAt mmu.base := fun i hi hloads => (noteFile_inside hfresh i hi hloads).1

theorem noteFile_startsAt_ram : noteFile.StartsAt 0x10000 := by
  intro i hi hloads
  rw [noteFile_loads hi hloads, noteFile_segment]

theorem noteFile_tail_needed : ∃ mmu : Mmu,
    mmuInit generousHeap 0x10000 0x1000 = .ok (some mmu) ∧
    ¬ ∀ heaps elf mmu', elfLoad true heaps noteFile mmu = .ok (some elf, mmu') →
      noteFile.TailsZero mmu' := by
  obtain ⟨mmu, hinit⟩ := generousHeap_init
  have hfresh := mmuInit_fresh hinit
  have hsized : mmu.size.toNat < 2 ^ 63 := hfresh.size ▸ hfresh.sized
  refine ⟨mmu, hinit, fun hzero => ?_⟩
  have hcondition := (tailsZero_iff hsized noteFile_wellFormed noteFile_apart
    (noteFile_startsAt hfresh)).mp hzero 1 noteFile_one
  rw [noteFile_segment] at hcondition
  exact absurd (hcondition rfl (by decide)) (by decide)

/-- The word behind the eight from the file cannot be read. -/
theorem noteFile_tail_refused : ∃ mmu mmu' : Mmu,
    mmuInit generousHeap 0x10000 0x1000 = .ok (some mmu) ∧
    elfLoad true (fun _ => generousHeap) noteFile mmu = .ok (some { entry := 0x10000 }, mmu') ∧
    (0x10020 : Vaddr).toNat ∈ (noteFile.phdr 1).tail ∧ ¬ noteFile.TailsZero mmu' ∧
    ∀ dst, (mmuReadInto mmu' dst 0x10020 1).1 = 0 := by
  obtain ⟨mmu, hinit⟩ := generousHeap_init
  have hfresh := mmuInit_fresh hinit
  have hsized : mmu.size.toNat < 2 ^ 63 := hfresh.size ▸ hfresh.sized
  have hplaced := @ElfFile.Inside.placed noteFile (fun _ => generousHeap) mmu _
    (noteFile_inside hfresh) hsized (Nat.le_refl _)
  have hload := (elfLoad_iff noteFile_wellFormed hsized).mpr ⟨rfl, hplaced, rfl, rfl⟩
  rw [noteFile_entry] at hload
  have hreadable : (noteFile.phdr 1).Readable := by
    rw [noteFile_segment]
    decide
  have hmem : (0x10020 : Vaddr).toNat ∈ (noteFile.phdr 1).tail := by
    rw [noteFile_segment]
    exact ⟨by decide, by decide⟩
  have hrefused : ∀ dst, (mmuReadInto (noteFile.image (fun _ => generousHeap) mmu noteFile.phnum)
      dst 0x10020 1).1 = 0 := by
    intro dst
    obtain ⟨state, -, hread⟩ := hplaced.tail_refused hsized noteFile_wellFormed noteFile_apart
      (fun _ _ => (by decide : ¬ (0 : Perm).Readable)) noteFile_one noteFile_segment_loads hmem dst
    rw [hread]
  refine ⟨mmu, _, hinit, hload, hmem, fun hzero => ?_, hrefused⟩
  obtain ⟨mmu', hread⟩ :=
    hzero 1 noteFile_one noteFile_segment_loads hreadable 0x10020 hmem fun _ => 0
  have hcount := hrefused fun _ => 0
  rw [hread] at hcount
  exact absurd (show (1 : Size) = 0 from hcount) (by decide)

end CRiscV
