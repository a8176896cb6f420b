/-
The loaded memory, cell by cell: each segment is a patch, and `elf_load` lays them on in the
order of the headers.  When the segments are apart the order shows only in the bump pointer.
-/
import Mathlib.Order.Interval.Set.Disjoint
import CRiscV.Data.Patch
import CRiscV.Mmu.Cells
import CRiscV.Refinement.Load

namespace CRiscV

/-- Where a segment goes, and what the file has for it. -/
structure Segment where
  vaddr : Vaddr
  memsz : Word
  flags : Word
  bytes : List (BitVec 8)
  deriving DecidableEq

def ElfFile.segment (file : ElfFile) (p : Phdr) : Segment where
  vaddr := p.vaddr
  memsz := p.memsz
  flags := p.flags
  bytes := (List.range p.filesz.toNat).map fun k => file.byte (p.offset.toNat + k)

/-- The segments among the first `n` headers. -/
def ElfFile.segmentsTo (file : ElfFile) (n : Nat) : List Segment :=
  ((List.range n).filter fun i => (file.phdr i).Loads).map fun i => file.segment (file.phdr i)

def ElfFile.segments (file : ElfFile) : List Segment := file.segmentsTo file.phnum

namespace Segment

def limit (s : Segment) : Nat := s.vaddr.toNat + s.memsz.toNat

def range (s : Segment) : Set Nat := Set.Ico s.vaddr.toNat s.limit

/-- The bytes of the file get the permission of the flags, and the rest of the range waits
for its first write. -/
def patch (s : Segment) : Patch (BitVec 8 × Perm) where
  range := s.range
  apply a c :=
    if s.vaddr.toNat ≤ a ∧ a < s.limit then
      match s.bytes[a - s.vaddr.toNat]? with
      | some x => (x, segmentPerm s.flags)
      | none => (c.1, mpermWrite ||| mpermRaw)
    else c
  outside _ ha _ := if_neg ha

/-- The end of the last segment. -/
def lastLimit (start : Nat) (ss : List Segment) : Nat := ss.foldl (fun _ s => s.limit) start

theorem lastLimit_concat (start : Nat) (ss : List Segment) (s : Segment) :
    lastLimit start (ss ++ [s]) = s.limit := by
  rw [lastLimit, List.foldl_append]
  rfl

theorem patch_byte {s : Segment} {a : Nat} {x : BitVec 8} {c : BitVec 8 × Perm} (ha : a ∈ s.range)
    (hx : s.bytes[a - s.vaddr.toNat]? = some x) : s.patch.apply a c = (x, segmentPerm s.flags) := by
  unfold patch
  simp only [if_pos (show s.vaddr.toNat ≤ a ∧ a < s.limit from ha), hx]

theorem patch_tail {s : Segment} {a : Nat} {c : BitVec 8 × Perm} (ha : a ∈ s.range)
    (hx : s.bytes[a - s.vaddr.toNat]? = none) :
    s.patch.apply a c = (c.1, mpermWrite ||| mpermRaw) := by
  unfold patch
  simp only [if_pos (show s.vaddr.toNat ≤ a ∧ a < s.limit from ha), hx]

end Segment

/-! ## The memory -/

section Loaded

variable {file : ElfFile} {heap : Heap} {heaps : Nat → Heap} {mmu : Mmu} {p : Phdr} {a n : Nat}

theorem ElfFile.segment_byte (file : ElfFile) (p : Phdr) {k : Nat} (hk : k < p.filesz.toNat) :
    (file.segment p).bytes[k]? = some (file.byte (p.offset.toNat + k)) := by
  unfold ElfFile.segment
  rw [List.getElem?_map, List.getElem?_range hk]
  rfl

theorem ElfFile.segment_none (file : ElfFile) (p : Phdr) {k : Nat} (hk : p.filesz.toNat ≤ k) :
    (file.segment p).bytes[k]? = none := by
  apply List.getElem?_eq_none
  unfold ElfFile.segment
  rwa [List.length_map, List.length_range]

/-- A segment inside the memory. -/
theorem Mmu.loaded_cells (hsized : mmu.size.toNat < 2 ^ 63)
    (hholds : mmu.Holds p.vaddr p.memsz.toNat) (hsizes : p.filesz.toNat ≤ p.memsz.toNat) (a : Nat) :
    (mmu.loaded heap file p).cells a = (mmu.cells a).map ((file.segment p).patch.apply a) := by
  have hkept : ¬ mmu.Extends p.vaddr (wide p.memsz) := by
    rw [Phdr.extends_iff hsized]
    exact Nat.not_lt.mpr (Phdr.endOffset_le hholds)
  have hgranted : p.Granted heap mmu := fun hextends => absurd hextends hkept
  have hgrown := @Mmu.grown_inside mmu heap p.vaddr (wide p.memsz) hkept
  have hbase : (mmu.loaded heap file p).base = mmu.base := Mmu.loaded_base hgranted
  have hsize : (mmu.loaded heap file p).size = mmu.size :=
    (congrArg Mmu.size hgrown :)
  unfold Mmu.cells
  rw [hbase, hsize]
  by_cases hin : mmu.base.toNat ≤ a ∧ a < mmu.base.toNat + mmu.size.toNat
  · rw [if_pos hin, if_pos hin, Option.map_some]
    congr 1
    by_cases hfile : a ∈ p.fileBytes
    · have hoffset : a - p.vaddr.toNat < p.filesz.toNat := by
        obtain ⟨hlo, hhi⟩ := hfile
        omega
      rw [Mmu.loaded_data_of_mem rfl hgranted hholds.1 hfile,
        Mmu.loaded_perm_of_mem rfl hgranted hholds.1 hfile,
        Segment.patch_byte (Phdr.fileBytes_subset hsizes hfile) (file.segment_byte p hoffset)]
      rfl
    · rw [Mmu.loaded_data_of_not_mem rfl hgranted hholds.1 hin.1 hfile, hgrown]
      by_cases htail : a ∈ p.memory
      · have hoffset : p.filesz.toNat ≤ a - p.vaddr.toNat := by
          simp only [Phdr.fileBytes, Phdr.memory, Set.mem_Ico] at hfile htail
          omega
        have htail' : a ∈ p.tail := by
          simp only [Phdr.tail, Phdr.memory, Set.mem_Ico] at htail ⊢
          omega
        rw [Mmu.loaded_perm_of_tail rfl hgranted hholds.1 htail',
          Segment.patch_tail htail (file.segment_none p hoffset)]
      · rw [Mmu.loaded_perm_of_not_mem rfl hgranted hholds.1 hsizes hin.1 htail, hgrown,
          (file.segment p).patch.outside a htail]
  · rw [if_neg hin, if_neg hin]
    rfl

theorem ElfFile.segmentsTo_loads (h : (file.phdr n).Loads) :
    file.segmentsTo (n + 1) = file.segmentsTo n ++ [file.segment (file.phdr n)] := by
  unfold ElfFile.segmentsTo
  rw [List.range_succ, List.filter_append, List.map_append]
  simp [h]

theorem ElfFile.segmentsTo_other (h : ¬ (file.phdr n).Loads) :
    file.segmentsTo (n + 1) = file.segmentsTo n := by
  unfold ElfFile.segmentsTo
  rw [List.range_succ, List.filter_append]
  simp [h]

theorem ElfFile.Inside.image_cells (hinside : file.Inside mmu) (hfile : file.WellFormed)
    (hsized : mmu.size.toNat < 2 ^ 63) (hn : n ≤ file.phnum) (a : Nat) :
    (file.image heaps mmu n).cells a =
      (mmu.cells a).map (Patch.fold ((file.segmentsTo n).map Segment.patch) a) := by
  induction n with
  | zero => exact Option.map_id'.symm
  | succ n ih =>
      have ih := ih (by omega)
      by_cases hloads : (file.phdr n).Loads
      · have hplaced := @ElfFile.Inside.placed file heaps mmu n hinside hsized (by omega)
        obtain ⟨hbase, hextent⟩ := hplaced.image_layout hsized
        rw [hinside.extent_eq (by omega)] at hextent
        have hsize : (file.image heaps mmu n).size.toNat = mmu.size.toNat :=
          congrArg Extent.size hextent
        have hholds : (file.image heaps mmu n).Holds (file.phdr n).vaddr
            (file.phdr n).memsz.toNat := by
          have hholds := hinside n hn hloads
          unfold Mmu.Holds at hholds ⊢
          rwa [hbase, hsize]
        have hpatch : ∀ c, Patch.fold ((file.segmentsTo (n + 1)).map Segment.patch) a c =
            (file.segment (file.phdr n)).patch.apply a
              (Patch.fold ((file.segmentsTo n).map Segment.patch) a c) := by
          intro c
          rw [file.segmentsTo_loads hloads, List.map_append, Patch.fold_append]
          rfl
        rw [file.image_succ_of_loads hloads,
          Mmu.loaded_cells (by rwa [hsize]) hholds (hfile.sizes n hn hloads), ih, Option.map_map]
        congr 1
        funext c
        exact (hpatch c).symm
      · rw [file.image_succ_of_not_loads hloads, file.segmentsTo_other hloads, ih]

/-- The loader leaves the bump pointer behind the last segment, wherever that is. -/
theorem ElfFile.Inside.image_currVaddr (hinside : file.Inside mmu)
    (hsized : mmu.size.toNat < 2 ^ 63) (hn : n ≤ file.phnum) :
    (file.image heaps mmu n).currVaddr.toNat =
      Segment.lastLimit mmu.currVaddr.toNat (file.segmentsTo n) := by
  induction n with
  | zero => rfl
  | succ n ih =>
      by_cases hloads : (file.phdr n).Loads
      · have hplaced := @ElfFile.Inside.placed file heaps mmu n hinside hsized (by omega)
        have hreach := Phdr.endOffset_le (hinside n hn hloads)
        have hkept := file.not_extends hsized hplaced (by rwa [hinside.extent_eq (by omega)])
        have hgrown := @Mmu.grown_inside _ (heaps n) _ _ hkept
        have hcurr : ((file.image heaps mmu n).loaded (heaps n) file (file.phdr n)).currVaddr =
            wide (file.phdr n).vaddr + wide (file.phdr n).memsz :=
          (congrArg Mmu.currVaddr hgrown :)
        rw [file.image_succ_of_loads hloads, file.segmentsTo_loads hloads,
          Segment.lastLimit_concat, hcurr, segment_end _ (wide_lt _), wide_toNat]
        rfl
      · rw [file.image_succ_of_not_loads hloads, file.segmentsTo_other hloads]
        exact ih (by omega)

end Loaded

/-! ## The order of the headers -/

section Order

variable {file file' : ElfFile} {heap : Heap} {heaps heaps' : Nat → Heap} {mmu : Mmu}
  {base : Vaddr} {size : Size}

theorem ElfFile.mem_segments {s : Segment} :
    s ∈ file.segments ↔
      ∃ i < file.phnum, (file.phdr i).Loads ∧ file.segment (file.phdr i) = s := by
  unfold ElfFile.segments ElfFile.segmentsTo
  simp only [List.mem_map, List.mem_filter, List.mem_range, decide_eq_true_eq, and_assoc]

theorem ElfFile.inside_iff :
    file.Inside mmu ↔ ∀ s ∈ file.segments, mmu.Holds s.vaddr s.memsz.toNat := by
  constructor
  · rintro h s hs
    obtain ⟨i, hi, hloads, rfl⟩ := ElfFile.mem_segments.mp hs
    exact h i hi hloads
  · intro h i hi hloads
    exact h _ (ElfFile.mem_segments.mpr ⟨i, hi, hloads, rfl⟩)

theorem ElfFile.Apart.patches (h : file.Apart) :
    Patch.Apart (file.segments.map Segment.patch) := by
  have hmem : ∀ {i}, i ∈ (List.range file.phnum).filter (fun i => (file.phdr i).Loads) →
      i < file.phnum ∧ (file.phdr i).Loads := by
    intro i hi
    simpa using hi
  refine List.pairwise_map.mpr (List.pairwise_map.mpr ?_)
  refine (List.Pairwise.filter _ List.pairwise_lt_range).imp_of_mem ?_
  intro i j hi hj hlt
  exact h i (hmem hi).1 j (hmem hj).1 (Nat.ne_of_lt hlt) (hmem hi).2 (hmem hj).2

/-- In a range of a segment stands what the segment's patch makes of the cells. -/
theorem ElfFile.Inside.image_segment (hinside : file.Inside mmu) (hfile : file.WellFormed)
    (hsized : mmu.size.toNat < 2 ^ 63) (hapart : file.Apart) {s : Segment}
    (hs : s ∈ file.segments) {a : Nat} (ha : a ∈ s.range) :
    ∃ c, (file.image heaps mmu file.phnum).cells a = some (s.patch.apply a c) := by
  obtain ⟨hlo, hhi⟩ := ElfFile.inside_iff.mp hinside s hs
  obtain ⟨hlo', hhi'⟩ := ha
  rw [Segment.limit] at hhi'
  rw [hinside.image_cells hfile hsized (Nat.le_refl _), Mmu.cells_of_mem (by omega) (by omega)]
  refine ⟨_, congrArg some (hapart.patches.fold_eq (List.mem_map_of_mem hs) ?_)⟩
  exact ⟨hlo', hhi'⟩

/-- The memory behind `elf_load` is exactly the old one with the segments laid on in the order
of the headers, and the bump pointer is the end of the last one. -/
theorem elfLoad_exact (hinit : mmuInit heap base size = .ok (some mmu))
    (hfile : file.WellFormed) (hinside : file.Inside mmu) :
    ∃ mmu', elfLoad true heaps file mmu = .ok (some { entry := file.entry }, mmu') ∧
      (∀ a, mmu'.cells a =
        (mmu.cells a).map (Patch.fold (file.segments.map Segment.patch) a)) ∧
      mmu'.currVaddr.toNat = Segment.lastLimit mmu.currVaddr.toNat file.segments := by
  have hfresh := mmuInit_fresh hinit
  have hsized : mmu.size.toNat < 2 ^ 63 := hfresh.size ▸ hfresh.sized
  have hplaced := @ElfFile.Inside.placed file heaps mmu _ hinside hsized (Nat.le_refl _)
  exact ⟨_, (elfLoad_iff hfile hsized).mpr ⟨rfl, hplaced, rfl, rfl⟩,
    hinside.image_cells hfile hsized (Nat.le_refl _),
    hinside.image_currVaddr hsized (Nat.le_refl _)⟩

/-- Two files with the same segments, in any order of their headers, load the same memory
when the segments are apart; the bump pointers differ as the last segments do. -/
theorem elfLoad_reordered (hinit : mmuInit heap base size = .ok (some mmu))
    (hfile : file.WellFormed) (hfile' : file'.WellFormed) (hapart : file.Apart)
    (hinside : file.Inside mmu) (hperm : file.segments.Perm file'.segments) :
    ∃ m m', elfLoad true heaps file mmu = .ok (some { entry := file.entry }, m) ∧
      elfLoad true heaps' file' mmu = .ok (some { entry := file'.entry }, m') ∧
      m'.cells = m.cells ∧
      (m'.currVaddr = m.currVaddr ↔
        Segment.lastLimit mmu.currVaddr.toNat file'.segments =
          Segment.lastLimit mmu.currVaddr.toNat file.segments) := by
  have hinside' : file'.Inside mmu :=
    ElfFile.inside_iff.mpr fun s hs => ElfFile.inside_iff.mp hinside s (hperm.mem_iff.mpr hs)
  obtain ⟨m, hload, hcells, hcurr⟩ := @elfLoad_exact file _ heaps _ _ _ hinit hfile hinside
  obtain ⟨m', hload', hcells', hcurr'⟩ := @elfLoad_exact file' _ heaps' _ _ _ hinit hfile' hinside'
  refine ⟨m, m', hload, hload', ?_, ?_⟩
  · funext a
    rw [hcells, hcells']
    congr 1
    funext c
    exact hapart.patches.fold_perm (hperm.map _)
  · rw [← hcurr, ← hcurr', BitVec.toNat_inj]

end Order

/-! ## Two files -/

/-- Two headers in front of two words. -/
def pairFile (first second : List Word) : ElfFile where
  bytes :=
    [0x7f, 0x45, 0x4c, 0x46, 1, 1, 1, 0, 0, 0, 0, 0, 0, 0, 0, 0] ++
    halfBytes 2 ++ halfBytes 0xf3 ++ wordBytes 1 ++
    wordBytes 0x10000 ++ wordBytes 52 ++ wordBytes 0 ++ wordBytes 0 ++
    halfBytes 52 ++ halfBytes 32 ++ halfBytes 2 ++ halfBytes 40 ++ halfBytes 0 ++ halfBytes 0 ++
    first.flatMap wordBytes ++ second.flatMap wordBytes ++
    [0x00000013, 0x0000006f].flatMap wordBytes

/-- One word from the file and one behind it, at the start of RAM. -/
def lowHeader : List Word := [1, 116, 0x10000, 0x10000, 4, 8, 6, 4]

def highHeader : List Word := [1, 120, 0x10100, 0x10100, 4, 4, 4, 4]

def lowSegment : Segment where
  vaddr := 0x10000
  memsz := 8
  flags := 6
  bytes := [0x13, 0, 0, 0]

def highSegment : Segment where
  vaddr := 0x10100
  memsz := 4
  flags := 4
  bytes := [0x6f, 0, 0, 0]

theorem pairFile_segments :
    (pairFile lowHeader highHeader).segments = [lowSegment, highSegment] ∧
      (pairFile highHeader lowHeader).segments = [highSegment, lowSegment] := ⟨rfl, rfl⟩

theorem pairFile_entry : (pairFile lowHeader highHeader).entry = 0x10000 ∧
    (pairFile highHeader lowHeader).entry = 0x10000 := ⟨rfl, rfl⟩

theorem pairFile_size {first second : List Word} (hfirst : first.length = 8)
    (hsecond : second.length = 8) : (pairFile first second).size = 124 := by
  unfold ElfFile.size pairFile
  simp only [List.length_append, wordBytes_length, halfBytes_length, words_length, hfirst, hsecond]
  rfl

/-- The fields that the loader checks, for headers whose segments are in the file. -/
theorem pairFile_wellFormed {first second : List Word} (hfirst : first.length = 8)
    (hsecond : second.length = 8)
    (hphoff : (pairFile first second).phoff = 52) (hphnum : (pairFile first second).phnum = 2)
    (hphdr : ∀ i < 2, ((pairFile first second).phdr i).filesz.toNat ≤
        ((pairFile first second).phdr i).memsz.toNat ∧
      ((pairFile first second).phdr i).offset.toNat +
        ((pairFile first second).phdr i).filesz.toNat ≤ 124) :
    (pairFile first second).WellFormed where
  header := by
    rw [pairFile_size hfirst hsecond]
    decide
  eiClass := rfl
  eiData := rfl
  table := by
    rw [pairFile_size hfirst hsecond, hphoff, hphnum]
    decide
  sizes := by
    intro i hi _
    rw [hphnum] at hi
    exact (hphdr i hi).1
  contents := by
    intro i hi _
    rw [hphnum] at hi
    rw [pairFile_size hfirst hsecond]
    exact (hphdr i hi).2

theorem lowHigh_wellFormed : (pairFile lowHeader highHeader).WellFormed :=
  pairFile_wellFormed rfl rfl rfl rfl (by decide)

theorem highLow_wellFormed : (pairFile highHeader lowHeader).WellFormed :=
  pairFile_wellFormed rfl rfl rfl rfl (by decide)

theorem lowHigh_inside {mmu : Mmu} (hfresh : mmu.Fresh 0x10000 0x1000) :
    (pairFile lowHeader highHeader).Inside mmu := by
  rw [ElfFile.inside_iff, pairFile_segments.1]
  intro s hs
  unfold Mmu.Holds
  rw [hfresh.base, hfresh.size]
  cases List.mem_pair.mp hs with
  | inl hlow =>
      rw [hlow]
      decide
  | inr hhigh =>
      rw [hhigh]
      decide

theorem lowHigh_apart : (pairFile lowHeader highHeader).Apart := by
  have hlow : ((pairFile lowHeader highHeader).phdr 0).memory = Set.Ico 0x10000 0x10008 := rfl
  have hhigh : ((pairFile lowHeader highHeader).phdr 1).memory = Set.Ico 0x10100 0x10104 := rfl
  have hdisjoint : Disjoint (Set.Ico 0x10000 0x10008) (Set.Ico 0x10100 0x10104) := by
    rw [Set.Ico_disjoint_Ico]
    decide
  intro i hi j hj hne _ _
  have hphnum : (pairFile lowHeader highHeader).phnum = 2 := rfl
  rw [hphnum] at hi hj
  obtain ⟨rfl, rfl⟩ | ⟨rfl, rfl⟩ : i = 0 ∧ j = 1 ∨ i = 1 ∧ j = 0 := by omega
  · rwa [hlow, hhigh]
  · rw [hlow, hhigh]
    exact hdisjoint.symm

/-- The second segment behind the first, and the first behind the second: one memory, and a
bump pointer in front of a segment. -/
theorem pairFile_reordered : ∃ mmu m m' : Mmu,
    mmuInit generousHeap 0x10000 0x1000 = .ok (some mmu) ∧
    elfLoad true (fun _ => generousHeap) (pairFile lowHeader highHeader) mmu =
      .ok (some { entry := 0x10000 }, m) ∧
    elfLoad true (fun _ => generousHeap) (pairFile highHeader lowHeader) mmu =
      .ok (some { entry := 0x10000 }, m') ∧
    m'.cells = m.cells ∧ m'.currVaddr ≠ m.currVaddr := by
  obtain ⟨mmu, hinit⟩ := generousHeap_init
  have hperm : (pairFile lowHeader highHeader).segments.Perm
      (pairFile highHeader lowHeader).segments := by
    rw [pairFile_segments.1, pairFile_segments.2]
    exact List.Perm.swap _ _ []
  obtain ⟨m, m', hload, hload', hcells, hcurr⟩ :=
    @elfLoad_reordered _ _ _ (fun _ => generousHeap) (fun _ => generousHeap) _ _ _ hinit
      lowHigh_wellFormed highLow_wellFormed lowHigh_apart (lowHigh_inside (mmuInit_fresh hinit))
      hperm
  rw [pairFile_entry.1] at hload
  rw [pairFile_entry.2] at hload'
  refine ⟨mmu, m, m', hinit, hload, hload', hcells, ?_⟩
  rw [ne_eq, hcurr, pairFile_segments.1, pairFile_segments.2]
  show ¬ lowSegment.limit = highSegment.limit
  decide

theorem pairFile_exact : ∃ mmu mmu' : Mmu,
    mmuInit generousHeap 0x10000 0x1000 = .ok (some mmu) ∧
    elfLoad true (fun _ => generousHeap) (pairFile lowHeader highHeader) mmu =
      .ok (some { entry := 0x10000 }, mmu') ∧
    (∀ a, mmu'.cells a =
      (mmu.cells a).map (Patch.fold [lowSegment.patch, highSegment.patch] a)) ∧
    mmu'.currVaddr.toNat = 0x10104 := by
  obtain ⟨mmu, hinit⟩ := generousHeap_init
  obtain ⟨mmu', hload, hcells, hcurr⟩ := @elfLoad_exact _ _ (fun _ => generousHeap) _ _ _ hinit
    lowHigh_wellFormed (lowHigh_inside (mmuInit_fresh hinit))
  rw [pairFile_entry.1] at hload
  rw [pairFile_segments.1] at hcells hcurr
  exact ⟨mmu, mmu', hinit, hload, hcells, hcurr⟩

end CRiscV
