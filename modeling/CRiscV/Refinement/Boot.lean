/-
From the file to the program's end: `main` loads the file, prepares the stack and starts a
core that hosts the user at the file's entry, with the file's segments in memory.
-/
import CRiscV.Emulator.Boot
import CRiscV.Refinement.Order
import CRiscV.Refinement.Process
import CRiscV.Refinement.Program

namespace CRiscV

open Isa (User)
open Transition (Run Meeting)

/-! ## Files that can be started -/

/-- The end of the last segment, where the loader leaves the bump pointer. -/
def ElfFile.brk (file : ElfFile) : Nat := Segment.lastLimit 0 file.segments

/-- The rounded blocks of the start: the stack, and the two strings. -/
def startRoom (argv1 : CString) : Nat := 4096 + 16 + 16 * ((argv1.bytes.length + 16) / 16)

/-- A well-formed file whose segments are apart and in RAM, the last one highest, with room
behind it for the stack and the strings. -/
structure ElfFile.Boots (file : ElfFile) (argv1 : CString) : Prop where
  wellFormed : file.WellFormed
  sized : file.size < 2 ^ 32
  apart : file.Apart
  starts : file.StartsAt ramStart
  ends : file.EndsInRam
  loads : file.segments ≠ []
  last : ∀ s ∈ file.segments, s.limit ≤ file.brk
  room : file.brk + startRoom argv1 < ramEnd.toNat
  entry : file.entry ≠ 0

/-- The host has the file and the memory for it, and `video_init` leaves the bounds of the
memory alone. -/
structure BootHost.Offers (host : BootHost) (file : ElfFile) (mmu : Mmu) : Prop where
  init : emulatorInit host.heap host.videoInit = .ok (some mmu)
  video : ∀ m m', host.videoInit m = some m' → m'.base = m.base ∧ m'.size = m.size
  file : host.file = some file.bytes
  grantsFile : host.grantsFile = true
  grantsElf : host.grantsElf = true

/-- The user that the file describes: at its entry, with its segments in memory, its
arguments on the stack and no call made. -/
structure ElfFile.Starts (file : ElfFile) (argv1 : CString) (u : User World) : Prop where
  entry : u.pc = file.entry
  registers : u.reg = emulatorRunRegs (u.reg 2)
  bytes : ∀ s ∈ file.segments, ∀ k x, s.bytes[k]? = some x →
    u.world.mmu.cells (s.vaddr.toNat + k) = some (x, segmentPerm s.flags)
  tails : ∀ s ∈ file.segments, ∀ k, s.bytes.length ≤ k → k < s.memsz.toNat →
    ∃ x, u.world.mmu.cells (s.vaddr.toNat + k) = some (x, mpermWrite ||| mpermRaw)
  stack : ∃ stack av0 av1, u.world.mmu.Prepared argv1 stack (u.reg 2) av0 av1
  calls : u.world.calls = []

section Boot

variable {file : ElfFile} {host : BootHost} {argv1 : CString} {mmu : Mmu}

theorem loadFile_eq (h : host.Offers file mmu) (hpos : 0 < file.size) (hsized : file.size < 2 ^ 32) :
    loadFile host = .ok (some file) := by
  have hnat : (BitVec.ofNat 32 file.bytes.length).toNat = file.bytes.length := by
    rw [BitVec.toNat_ofNat]
    exact Nat.mod_eq_of_lt hsized
  have hne : BitVec.ofNat 32 file.bytes.length ≠ 0 := by
    intro hzero
    rw [hzero] at hnat
    exact absurd hnat (Nat.ne_of_lt hpos)
  unfold loadFile
  rw [h.file]
  simp only [if_neg hne, h.grantsFile, hnat, List.take_length]
  rfl

theorem ElfFile.lastLimit_segments (hloads : file.segments ≠ []) (start : Nat) :
    Segment.lastLimit start file.segments = file.brk := by
  obtain ⟨ss, s, hlast⟩ := (List.eq_nil_or_concat' file.segments).resolve_left hloads
  unfold ElfFile.brk
  rw [hlast, Segment.lastLimit_concat, Segment.lastLimit_concat]

/-- What `elf_load` leaves for the start. -/
structure Mmu.Carries (mmu : Mmu) (file : ElfFile) : Prop where
  ram : mmu.MatchesRam
  bytes : ∀ s ∈ file.segments, ∀ k x, s.bytes[k]? = some x →
    mmu.cells (s.vaddr.toNat + k) = some (x, segmentPerm s.flags)
  tails : ∀ s ∈ file.segments, ∀ k, s.bytes.length ≤ k → k < s.memsz.toNat →
    ∃ x, mmu.cells (s.vaddr.toNat + k) = some (x, mpermWrite ||| mpermRaw)
  pointer : mmu.currVaddr.toNat = file.brk

theorem ElfFile.WellFormed.segment_length (h : file.WellFormed) {s : Segment}
    (hs : s ∈ file.segments) : s.bytes.length ≤ s.memsz.toNat := by
  obtain ⟨i, hi, hloads, rfl⟩ := ElfFile.mem_segments.mp hs
  unfold ElfFile.segment
  rw [List.length_map, List.length_range]
  exact h.sizes i hi hloads

theorem ElfFile.Boots.inside (h : file.Boots argv1) (hram : mmu.MatchesRam) : file.Inside mmu := by
  intro i hi hloads
  unfold Mmu.Holds
  rw [hram.limit_eq, hram.base]
  exact ⟨h.starts i hi hloads, h.ends i hi hloads⟩

theorem ElfFile.Boots.carried (h : file.Boots argv1) (hram : mmu.MatchesRam)
    {heaps : Nat → Heap} {granted : Bool} {elf : Elf32} {mmu' : Mmu}
    (hload : elfLoad granted heaps file mmu = .ok (some elf, mmu')) : mmu'.Carries file := by
  have hinside := h.inside hram
  obtain ⟨-, -, rfl, -⟩ := (elfLoad_iff h.wellFormed hram.sized).mp hload
  have hmem : ∀ s ∈ file.segments, ∀ k < s.memsz.toNat, s.vaddr.toNat + k ∈ s.range :=
    fun s _ k hk => ⟨Nat.le_add_right _ _, Nat.add_lt_add_left hk _⟩
  refine ⟨elfLoad_matches h.ends hram hload, ?_, ?_, ?_⟩
  · intro s hs k x hx
    have hk := (List.getElem?_eq_some_iff.mp hx).1
    have hlength := h.wellFormed.segment_length hs
    have hrange := hmem s hs k (by omega)
    obtain ⟨c, hc⟩ :=
      @ElfFile.Inside.image_segment file heaps mmu hinside h.wellFormed hram.sized h.apart s hs _
        hrange
    rw [hc, Segment.patch_byte hrange (by rwa [Nat.add_sub_cancel_left])]
  · intro s hs k hlength hk
    have hrange := hmem s hs k hk
    obtain ⟨c, hc⟩ :=
      @ElfFile.Inside.image_segment file heaps mmu hinside h.wellFormed hram.sized h.apart s hs _
        hrange
    rw [hc, Segment.patch_tail hrange
      (by rw [Nat.add_sub_cancel_left]; exact List.getElem?_eq_none hlength)]
    exact ⟨_, rfl⟩
  · exact (hinside.image_currVaddr hram.sized (Nat.le_refl _)).trans
      (file.lastLimit_segments h.loads _)

/-- The blocks of the start are granted behind the segments. -/
theorem ElfFile.Boots.allocates (h : file.Boots argv1) (hcarries : mmu.Carries file) :
    mmu.Allocates (mpermWrite ||| mpermRaw)
      [wide stackSize, strlen argv0 + 1, strlen argv1 + 1] := by
  have hlimit : mmu.limit = ramEnd.toNat := hcarries.ram.limit_eq
  have hend : ramEnd.toNat = 0x7ffff := rfl
  have hstart : ramStart.toNat = 0x10000 := rfl
  have hroom := h.room
  unfold startRoom at hroom
  have hlength : (BitVec.ofNat 32 (argv1.bytes.length + 1)).toNat = argv1.bytes.length + 1 := by
    rw [BitVec.toNat_ofNat]
    omega
  have hwide : wide (BitVec.ofNat 32 (argv1.bytes.length + 1)) = strlen argv1 + 1 := by
    apply BitVec.eq_of_toNat_eq
    rw [wide_toNat, hlength, argv1.size_toNat]
  have hsizes : ([stackSize, 15, BitVec.ofNat 32 (argv1.bytes.length + 1)].map roundUp).sum =
      startRoom argv1 := by
    have hstack : roundUp stackSize = 4096 := by decide
    have hfirst : roundUp 15 = 16 := by decide
    simp only [List.map_cons, List.map_nil, List.sum_cons, List.sum_nil, hstack, hfirst, startRoom]
    unfold roundUp
    rw [hlength]
    omega
  have hbase : ramStart.toNat ≤ file.brk := by
    obtain ⟨s, hs⟩ := List.exists_mem_of_ne_nil _ h.loads
    obtain ⟨i, hi, hloads, rfl⟩ := ElfFile.mem_segments.mp hs
    exact Nat.le_trans (h.starts i hi hloads)
      (Nat.le_trans (Nat.le_add_right _ _) (h.last _ hs))
  have hallocates := @Mmu.allocates_of_room mmu (mpermWrite ||| mpermRaw)
    [stackSize, 15, BitVec.ofNat 32 (argv1.bytes.length + 1)]
    ⟨hcarries.ram.sized, by rw [hcarries.ram.base, hcarries.pointer]; exact hbase⟩
    (by rw [hcarries.pointer]; omega)
    (by rw [hcarries.pointer, hsizes, hlimit]; exact h.room) (by rw [hlimit]; omega)
  simp only [List.map_cons, List.map_nil, hwide] at hallocates
  exact hallocates

theorem emulatorLoadElf_carries (h : file.Boots argv1) (hoffers : host.Offers file mmu) :
    ∃ mmu', emulatorLoadElf host mmu = .ok (some { entry := file.entry }, mmu') ∧
      mmu'.Carries file := by
  have hram := emulatorInit_matches hoffers.video hoffers.init
  have hpos : 0 < file.size := Nat.lt_of_lt_of_le (by decide) h.wellFormed.header
  have hplaced := @ElfFile.Inside.placed file host.heaps mmu _ (h.inside hram) hram.sized
    (Nat.le_refl _)
  have hload := (elfLoad_iff h.wellFormed hram.sized).mpr ⟨rfl, hplaced, rfl, rfl⟩
  refine ⟨_, ?_, h.carried hram hload⟩
  unfold emulatorLoadElf
  rw [loadFile_eq hoffers hpos h.sized, hoffers.grantsElf]
  show (elfLoad true host.heaps file mmu).mapError BootFailure.aborted >>= _ = _
  rw [hload]
  exact if_neg h.entry

/-- The user on the memory that the start leaves. -/
def startUser (entry : Vaddr) (sp : Word) (mmu : Mmu) : User World where
  pc := entry
  reg := emulatorRunRegs sp
  world := { mmu := mmu, csr := .ready, calls := [] }

theorem startUser_hosted (entry : Vaddr) (sp : Word) (mmu : Mmu) :
    (startUser entry sp mmu).HostedBy (Turn.first (unpushed entry sp (mainBus mmu))) :=
  ⟨rfl, ⟨rfl, rfl, rfl, rfl, rfl, ⟨.ok, mmu.state, rfl⟩, rfl, Core.holds_of_empty rfl⟩⟩

theorem main_hosts (h : file.Boots argv1) (hoffers : host.Offers file mmu) :
    ∃ s u, main host argv1 = .ok s ∧ file.Starts argv1 u ∧ u.HostedBy (Turn.first s.machine) := by
  obtain ⟨mmu', hload, hcarries⟩ := emulatorLoadElf_carries h hoffers
  obtain ⟨stack, sp, av0, av1, m, hrun, -, -, hprepared, hbelow⟩ :=
    @emulatorRun_placed [csrMmioDevice .ready] mmu' { entry := file.entry } argv1 hcarries.ram
      (h.allocates hcarries)
  have hroom := h.room
  have hend : ramEnd.toNat < 2 ^ 32 := ramEnd.isLt
  rw [Mmu.start_toNat (by rw [hcarries.pointer]; omega), hcarries.pointer] at hbelow
  have hkept : ∀ s ∈ file.segments, ∀ k < s.memsz.toNat,
      m.cells (s.vaddr.toNat + k) = mmu'.cells (s.vaddr.toNat + k) := by
    intro s hs k hk
    have hlast := h.last s hs
    unfold Segment.limit at hlast
    exact hbelow _ (by omega)
  refine ⟨{ stack := stack, machine := unpushed file.entry sp (mainBus m) },
    startUser file.entry sp m, ?_, ⟨rfl, rfl, ?_, ?_, ⟨stack, av0, av1, hprepared⟩, rfl⟩,
    startUser_hosted file.entry sp m⟩
  · unfold main
    rw [hoffers.init]
    show emulatorLoadElf host mmu >>= _ = _
    rw [hload]
    show (emulatorRun { entry := file.entry } argv1 (ramFirst [csrMmioDevice .ready] mmu')).mapError
      BootFailure.aborted = _
    rw [hrun]
    rfl
  · intro s hs k x hx
    have hk := (List.getElem?_eq_some_iff.mp hx).1
    have hlength := h.wellFormed.segment_length hs
    exact (hkept s hs k (by omega)).trans (hcarries.bytes s hs k x hx)
  · intro s hs k hlength hk
    obtain ⟨x, hx⟩ := hcarries.tails s hs k hlength hk
    exact ⟨x, (hkept s hs k hk).trans hx⟩

/-- From the command line on: the emulator starts with the user that the file describes, goes
through every run of that user, and ends with it. -/
theorem main_runs (h : file.Boots argv1) (hoffers : host.Offers file mmu) :
    ∃ s u, main host argv1 = .ok s ∧ file.Starts argv1 u ∧
      (∀ ls v rows, Run (SupportedStep emulated) u ls v → List.Forall₂ Row ls rows →
        ∃ t', Run (ThreadStep emulatorTurn) (Turn.first s.machine) rows.flatten t' ∧
          v.HostedBy t') ∧
      ∀ ls v host host₀ host₁ host₂ w rows, Run (SupportedStep emulated) u ls v →
        emulatorPlatform.Halts v host w → List.Forall₂ Row ls rows →
        ∃ t', Run (ThreadStep emulatorTurn) (Turn.first s.machine)
            (rows.flatten ++ [host₀, host₁, host₂, host]) t' ∧ t'.running = false ∧
          w.mmu.SameMemory t'.machine.bus.mmu ∧ t'.machine.calls = w.calls := by
  obtain ⟨s, u, hmain, hstarts, hhosted⟩ := main_hosts h hoffers
  refine ⟨s, u, hmain, hstarts, ?_, ?_⟩
  · intro ls v rows hrun hrows
    exact hhosted.follows_run hrun hrows
  · intro ls v host host₀ host₁ host₂ w rows hrun hhalts hrows
    obtain ⟨t', hturns, hhosts⟩ := hhosted.follows_run hrun hrows
    obtain ⟨t'', hlast, hended, hmemory, hcalls⟩ :=
      hhosts.machine.halted_turns hhosts.running hhalts host₀ host₁ host₂
    exact ⟨t'', hturns.append hlast, hended, hmemory, hcalls⟩

end Boot

/-! ## What the user finds of the file -/

section Finds

variable {file : ElfFile} {argv1 : CString} {u : User World} {s : Segment} {k n : Nat}

theorem ElfFile.Starts.ram (h : file.Starts argv1 u) : u.world.mmu.MatchesRam := by
  obtain ⟨stack, av0, av1, hprepared⟩ := h.stack
  exact hprepared.ram

/-- Bytes of the file in memory. -/
theorem ElfFile.Starts.holds (h : file.Starts argv1 u) (hs : s ∈ file.segments)
    (hn : 0 < n) (hk : k + n ≤ s.bytes.length) :
    (s.vaddr + BitVec.ofNat 32 k).toNat = s.vaddr.toNat + k ∧
      Region.Holds u.world.mmu.cells (s.vaddr + BitVec.ofNat 32 k).toNat n fun i c =>
        c = (s.bytes.getD (k + i) 0, segmentPerm s.flags) := by
  have hcell : ∀ i < n, u.world.mmu.cells (s.vaddr.toNat + k + i) =
      some (s.bytes.getD (k + i) 0, segmentPerm s.flags) := by
    intro i hi
    rw [Nat.add_assoc]
    apply h.bytes s hs
    rw [List.getD_eq_getElem?_getD, List.getElem?_eq_getElem (by omega), Option.getD_some]
  have hend := (Mmu.cells_eq_some (hcell 0 hn)).2.1
  have hlt : ramEnd.toNat < 2 ^ 32 := ramEnd.isLt
  rw [h.ram.limit_eq] at hend
  have haddr : (s.vaddr + BitVec.ofNat 32 k).toNat = s.vaddr.toNat + k := by
    rw [BitVec.toNat_add, BitVec.toNat_ofNat]
    omega
  refine ⟨haddr, ?_⟩
  rw [haddr]
  exact fun i hi => ⟨_, hcell i hi, rfl⟩

theorem ElfFile.Starts.reads (h : file.Starts argv1 u) (hs : s ∈ file.segments)
    (hreadable : s.flags &&& 4 ≠ 0) (hn : 0 < n) (hk : k + n ≤ s.bytes.length) :
    u.world.Reads (s.vaddr + BitVec.ofNat 32 k) n ∧
      ∀ i < n, u.world.mmu.memory (s.vaddr + BitVec.ofNat 32 k + BitVec.ofNat 32 i) =
        s.bytes.getD (k + i) 0 := by
  obtain ⟨haddr, hcells⟩ := h.holds hs hn hk
  have hbounds := (Mmu.cells_bounds hcells hn).2
  have hlt : ramEnd.toNat < 2 ^ 32 := ramEnd.isLt
  rw [h.ram.limit_eq] at hbounds
  have hcovers := h.ram.covers hn hcells
  obtain ⟨hholds, hall⟩ := (Mmu.holds_cells_iff hn).mp hcells
  have hram : u.world.bus.InRam (s.vaddr + BitVec.ofNat 32 k) n :=
    ⟨⟨0, _, ramFirst_routes hcovers, rfl, rfl⟩, hholds, h.ram.sized, by omega⟩
  refine ⟨⟨hram, fun i hi => ?_⟩, fun i hi => ?_⟩
  · have hperm : u.world.mmu.permFrom (s.vaddr + BitVec.ofNat 32 k) i = segmentPerm s.flags :=
      congrArg Prod.snd (hall i hi)
    rw [hperm]
    exact segmentPerm_readable.mpr hreadable
  · exact (hram.byteFrom_eq hi).symm.trans (congrArg Prod.fst (hall i hi))

/-- The word at a place of the segment. -/
def Segment.word (s : Segment) (k : Nat) : Word :=
  Bytes.ofBytes 32 4 fun i => s.bytes.getD (k + i) 0

/-- Instructions of a readable segment are the user's. -/
theorem ElfFile.Starts.shows {i : Isa.Instr} (h : file.Starts argv1 u) (hs : s ∈ file.segments)
    (hreadable : s.flags &&& 4 ≠ 0) (hk : k + 32 ≤ s.bytes.length)
    (hdecode : Isa.decode (s.word k) = some i) :
    emulatorPlatform.Shows u.world (s.vaddr + BitVec.ofNat 32 k) i := by
  obtain ⟨hreads, hbytes⟩ := h.reads hs hreadable (by omega) hk
  refine ⟨hreads, ?_⟩
  rw [← hreads.word_eq (by omega), Mmu.ramWord, ← hdecode, Segment.word]
  congr 1
  apply Bytes.ofBytes_congr
  intro j hj
  exact (hreads.1.byteFrom_eq (by omega)).trans (hbytes j (by omega))

end Finds

/-! ## A file -/

/-- A host with the file. -/
def noteHost : BootHost where
  heap := generousHeap
  videoInit := some
  file := some noteFile.bytes
  grantsFile := true
  grantsElf := true
  heaps _ := generousHeap

def noteSegment : Segment where
  vaddr := 0x10000
  memsz := 36
  flags := 4
  bytes := ([0x00000013, 1, 2, 3, 4, 5, 6, 7] : List Word).flatMap wordBytes

theorem noteFile_segments : noteFile.segments = [noteSegment] := rfl

theorem noteHost_offers : noteHost.Offers noteFile initialMmu where
  init := rfl
  video := by
    intro m m' hvideo
    cases (show some m = some m' from hvideo)
    exact ⟨rfl, rfl⟩
  file := rfl
  grantsFile := rfl
  grantsElf := rfl

theorem noteFile_boots : noteFile.Boots letter where
  wellFormed := noteFile_wellFormed
  sized := by
    rw [noteFile_size]
    decide
  apart := noteFile_apart
  starts := noteFile_startsAt_ram
  ends := noteFile_endsInRam
  loads := by
    rw [noteFile_segments]
    exact List.cons_ne_nil _ _
  last := by
    intro s hs
    unfold ElfFile.brk
    rw [noteFile_segments] at hs ⊢
    rw [List.mem_singleton.mp hs]
    exact Nat.le_refl _
  room := by
    unfold ElfFile.brk
    rw [noteFile_segments]
    decide
  entry := by
    rw [noteFile_entry]
    decide

/-- The first instruction of the file. -/
theorem noteFile_runs : ∃ s t', main noteHost letter = .ok s ∧
    Run (ThreadStep emulatorTurn) (Turn.first s.machine) (List.replicate 5 quietHost) t' ∧
    t'.machine.core.pc = 0x10004 := by
  obtain ⟨s, u, hmain, hstarts, hruns, -⟩ := main_runs noteFile_boots noteHost_offers
  have hmem : noteSegment ∈ noteFile.segments := by
    rw [noteFile_segments]
    exact List.mem_singleton_self _
  have hshows : emulatorPlatform.Shows u.world u.pc (.imm .addi 0 0 0) := by
    rw [hstarts.entry, noteFile_entry]
    exact @ElfFile.Starts.shows _ _ _ _ 0 _ hstarts hmem (by decide) (by decide) (by decide)
  have hstep : SupportedStep emulated u none
      (emulatorPlatform.after emulated u (.imm .addi 0 0 0)) := by
    refine ⟨.plain hshows trivial trivial, ?_⟩
    intro i hi
    cases hshows.unique hi
    exact ⟨nofun, nofun⟩
  have hrow : Row none (List.replicate 5 quietHost) := .plain _ _ _ _ _
  obtain ⟨t', hturns, hhosted⟩ := hruns [none] _ _ (Run.nil.snoc hstep) (.cons hrow .nil)
  refine ⟨s, t', hmain, hturns, ?_⟩
  rw [hhosted.machine.pc]
  show u.pc + 4 = _
  rw [hstarts.entry, noteFile_entry]
  rfl

end CRiscV
