/-
The process image: what a program finds in its registers and on its stack at the first
instruction.
-/
import Mathlib.Data.List.Forall2
import Mathlib.Order.CompletePartialOrder
import Mathlib.Order.Interval.Set.Disjoint
import CRiscV.Refinement.Allocation
import CRiscV.Refinement.Allocator
import CRiscV.Refinement.Startup
import CRiscV.Refinement.Strings

namespace CRiscV

/-! ## What the bus shows -/

/-- A word read of `v` returns `w` with the status `ok`. -/
def Bus.ShowsWord (bus : Bus) (v : Vaddr) (w : Word) : Prop :=
  ∀ residue, ∃ bus', busReadSingle residue bus (wide v) .word = .ok (w, bus') ∧ bus'.status = .ok

/-- The words from `v` on. -/
def Bus.ShowsWords (bus : Bus) : Vaddr → List Word → Prop
  | _, [] => True
  | v, w :: ws => bus.ShowsWord v w ∧ bus.ShowsWords (v + 4) ws

/-- `bus_read_string` stores the string at `v` and its terminator. -/
def Bus.ShowsString (bus : Bus) (v : Vaddr) (s : CString) : Prop :=
  ∀ residue, ∃ bus', busReadString residue bus (wide v) = .ok (s.bytes ++ [0], bus') ∧
    bus'.status = .ok

/-- The core is at the entry, with its stack pointer in the stack block.  From there on stand
the count, a pointer to each argument and the null words behind argv, envp and auxp; each
pointer leads to its string, and the blocks are disjoint. -/
structure ProcessImage (s : Started) (entry : Vaddr) (argc : Word) (argv : List CString) :
    Prop where
  pc : s.machine.core.pc = entry
  sp : (s.machine.core.registers 2).toNat ∈ addresses (s.stack, wide stackSize)
  vector : ∃ pointers : List Vaddr,
    s.machine.bus.ShowsWords (s.machine.core.registers 2) (argc :: (pointers ++ [0, 0, 0])) ∧
    List.Forall₂ (fun p arg => p ≠ 0 ∧ s.machine.bus.ShowsString p arg) pointers argv ∧
    ((s.stack, wide stackSize) ::
        List.zipWith (fun p arg => (p, strlen arg + 1)) pointers argv).Pairwise
      fun a b => Disjoint (addresses a) (addresses b)

section Shows

variable {bus : Bus} {v : Vaddr} {w w' : Word} {ws ws' : List Word}

theorem Bus.ShowsWord.unique (h : bus.ShowsWord v w) (h' : bus.ShowsWord v w') : w = w' := by
  obtain ⟨b, hb, -⟩ := h 0
  obtain ⟨b', hb', -⟩ := h' 0
  rw [hb] at hb'
  exact congrArg Prod.fst (Except.ok.inj hb')

/-- Two lists that are shown at one address agree as far as both go. -/
theorem Bus.ShowsWords.common (h : bus.ShowsWords v ws) (h' : bus.ShowsWords v ws') {i : Nat}
    (hi : i < ws.length) (hi' : i < ws'.length) : ws[i] = ws'[i] := by
  induction ws generalizing v ws' i with
  | nil => exact absurd hi (Nat.not_lt_zero i)
  | cons w ws ih =>
      match ws', h', hi' with
      | w' :: ws', h', hi' =>
          match i, hi, hi' with
          | 0, _, _ => exact h.1.unique h'.1
          | i + 1, hi, hi' =>
              exact ih h.2 h'.2 (Nat.lt_of_succ_lt_succ hi) (Nat.lt_of_succ_lt_succ hi')

end Shows

/-! ## Reading what the start has written -/

section Reading

variable {others : List Device} {mmu : Mmu} {v : Vaddr} {w : Word}

theorem ramFirst_showsWord (hram : mmu.MatchesRam)
    (h : Region.Holds mmu.cells v.toNat 4 (WordCell w)) :
    (ramFirst others mmu).ShowsWord v w := by
  have hroute := @ramFirst_routes others mmu _ (hram.covers (by decide) h)
  obtain ⟨hholds, hall⟩ := (Mmu.holds_cells_iff (by decide)).mp h
  have haccepts : mmu.Accepts ((wide v).setWidth 32) Width.word.bytes mpermRead := by
    rw [setWidth_wide, Mmu.accepts_read_iff hram.sized (by decide)]
    exact ⟨hholds, fun i hi => (hall i hi).2⟩
  have hbytes : ∀ i < 4, mmu.byteFrom v i = Bytes.byteAt w i := fun i hi => (hall i hi).1
  have hvalue : Bytes.ofBytes 32 Width.word.size (mmu.byteFrom ((wide v).setWidth 32)) = w := by
    rw [setWidth_wide, Width.size, Bytes.ofBytes_congr hbytes, Bytes.ofBytes_byteAt]
    exact (BitVec.setWidth_eq _).trans (BitVec.setWidth_eq w)
  intro residue
  rw [busReadSingle_routed rfl hroute, Device.readSingle_ram rfl]
  show ∃ bus', ((.ok (readRamSingle residue (ramDevice .ready) mmu ((wide v).setWidth 32) .word) :
    Except Abort _) >>= _) = _ ∧ _
  rw [readRamSingle_accepted haccepts, hvalue]
  exact ⟨_, rfl, rfl⟩

theorem ramFirst_showsWords (hram : mmu.MatchesRam) {ws : List Word}
    (h : Region.Laid 4 WordCell mmu.cells v.toNat ws) : (ramFirst others mmu).ShowsWords v ws := by
  induction ws generalizing v with
  | nil => trivial
  | cons w ws ih =>
      obtain ⟨hword, hrest⟩ := h
      have hbounds := (Mmu.cells_bounds hword (by decide)).2
      have hend : ramEnd.toNat < 2 ^ 32 := ramEnd.isLt
      have hfour : (4 : Vaddr).toNat = 4 := rfl
      have hnext : (v + 4).toNat = v.toNat + 4 := by
        rw [hram.limit_eq] at hbounds
        rw [BitVec.toNat_add, hfour]
        omega
      rw [← hnext] at hrest
      exact ⟨ramFirst_showsWord hram hword, ih hrest⟩

theorem CString.byte_of_lt {s : CString} {i : Nat} (hi : i < s.bytes.length) :
    s.byte i = s.bytes[i] := by
  simp [CString.byte, hi]

theorem CString.byte_length (s : CString) : s.byte s.bytes.length = 0 := by
  simp [CString.byte]

theorem CString.range_byte (s : CString) :
    (List.range (s.bytes.length + 1)).map s.byte = s.bytes ++ [0] := by
  rw [List.range_succ, List.map_append, List.map_singleton, s.byte_length]
  congr 1
  apply List.ext_getElem
  · simp
  · intro i hi hi'
    simp [CString.byte_of_lt hi']

/-- A byte of the memory that can be read, seen through the bus. -/
theorem ramFirst_shows {x : BitVec 8} {a : Size} (hram : mmu.MatchesRam)
    {c : BitVec 8 × Perm} (hcell : mmu.cells a.toNat = some c) (hreads : Reads x c) :
    (ramFirst others mmu).Shows a ∧ mmu.dataAt a.toNat = x := by
  obtain ⟨hlo, hhi, rfl⟩ := Mmu.cells_eq_some hcell
  obtain ⟨hdata, hperm⟩ := hreads
  have hcovers : (ramDevice .ready).covers a = true := by
    rw [hram.limit_eq] at hhi
    have hstart := congrArg BitVec.toNat hram.base
    rw [hstart] at hlo
    exact ramDevice_covers_range.mpr ⟨hlo, hhi⟩
  exact ⟨⟨⟨0, _, ramFirst_routes hcovers, rfl⟩, hlo, hhi, hperm⟩, hdata⟩

theorem ramFirst_showsString {s : CString} (hram : mmu.MatchesRam)
    (h : Region.Holds mmu.cells v.toNat (strlen s + 1).toNat fun i => Reads (s.byte i)) :
    (ramFirst others mmu).ShowsString v s := by
  rw [s.size_toNat] at h
  have hsized := s.sized
  have haddr : ∀ j < s.bytes.length + 1, (byteAddr (wide v) j).toNat = v.toNat + j := by
    intro j hj
    have hlt := v.isLt
    rw [byteAddr_toNat (by rw [wide_toNat]; omega), wide_toNat]
  have hbyte : ∀ j < s.bytes.length + 1, (ramFirst others mmu).Shows (byteAddr (wide v) j) ∧
      mmu.dataAt (byteAddr (wide v) j).toNat = s.byte j := by
    intro j hj
    obtain ⟨c, hc, hreads⟩ := h j hj
    rw [← haddr j hj] at hc
    exact ramFirst_shows hram hc hreads
  have htext : (ramFirst others mmu).ShowsText (wide v) s.bytes.length := by
    intro j hj
    obtain ⟨hshows, hdata⟩ := hbyte j (Nat.lt_succ_of_lt hj)
    refine ⟨hshows, ?_⟩
    show mmu.dataAt (byteAddr (wide v) j).toNat ≠ 0
    rw [hdata, CString.byte_of_lt hj]
    exact s.nonzero _ (List.getElem_mem hj)
  obtain ⟨hend, hzero⟩ := hbyte s.bytes.length (Nat.lt_succ_self _)
  obtain ⟨bus', -, hstatus, hread⟩ :=
    busReadString_zero rfl hram.sized htext hend (hzero.trans s.byte_length)
  have hbytes : (ramFirst others mmu).text (wide v) (s.bytes.length + 1) = s.bytes ++ [0] := by
    rw [← s.range_byte]
    exact List.map_congr_left fun j hj => (hbyte j (List.mem_range.mp hj)).2
  intro residue
  refine ⟨bus', ?_, hstatus⟩
  rw [hread, hbytes]

end Reading

/-! ## The image -/

section Image

variable {others : List Device} {mmu : Mmu} {argv1 : CString} {entry stack sp av0 av1 : Vaddr}
  {argc : Word}

theorem addresses_disjoint {r r' : Vaddr × Size} (h : r.1.toNat + r.2.toNat ≤ r'.1.toNat) :
    Disjoint (addresses r) (addresses r') := by
  rw [addresses, addresses, Set.Ico_disjoint_Ico]
  omega

/-- The words that the start leaves at the stack pointer. -/
theorem Mmu.Prepared.showsWords (h : mmu.Prepared argv1 stack sp av0 av1) :
    (ramFirst others mmu).ShowsWords sp [42, av0, av1, 0, 0, 0] :=
  ramFirst_showsWords h.ram h.words

/-- All of the image is there, with the count 42. -/
theorem Mmu.Prepared.image (h : mmu.Prepared argv1 stack sp av0 av1) (hav0 : av0 ≠ 0)
    (hav1 : av1 ≠ 0) :
    ProcessImage { stack := stack, machine := unpushed entry sp (ramFirst others mmu) } entry 42
      [argv0, argv1] where
  pc := rfl
  sp := by
    have hpointer := h.pointer
    have hsize : (wide stackSize).toNat = stackSize.toNat := wide_toNat stackSize
    have hfour : stackSize.toNat = 4096 := rfl
    show stack.toNat ≤ sp.toNat ∧ sp.toNat < stack.toNat + (wide stackSize).toNat
    omega
  vector := by
    refine ⟨[av0, av1], h.showsWords, ?_, ?_⟩
    · have hfirst := @ramFirst_showsString others _ _ _ h.ram h.first
      have hsecond := @ramFirst_showsString others _ _ _ h.ram h.second
      exact .cons ⟨hav0, hfirst⟩ (.cons ⟨hav1, hsecond⟩ .nil)
    · have habove : stack.toNat + (wide stackSize).toNat ≤ av0.toNat := by
        rw [wide_toNat]
        exact h.above
      have hapart := h.apart
      have hfirst := @addresses_disjoint (stack, wide stackSize) (av0, strlen argv0 + 1) habove
      have hbehind : stack.toNat + (wide stackSize).toNat ≤ av1.toNat := by omega
      have hsecond := @addresses_disjoint (stack, wide stackSize) (av1, strlen argv1 + 1) hbehind
      have hstrings := @addresses_disjoint (av0, strlen argv0 + 1) (av1, strlen argv1 + 1) hapart
      exact .cons (List.forall_mem_cons.mpr ⟨hfirst, List.forall_mem_singleton.mpr hsecond⟩)
        (List.pairwise_pair.mpr hstrings)

theorem Mmu.Prepared.image_iff (h : mmu.Prepared argv1 stack sp av0 av1) (hav0 : av0 ≠ 0)
    (hav1 : av1 ≠ 0) :
    ProcessImage { stack := stack, machine := unpushed entry sp (ramFirst others mmu) } entry argc
      [argv0, argv1] ↔ argc = 42 := by
  constructor
  · rintro ⟨-, -, pointers, hwords, -, -⟩
    exact (hwords.common h.showsWords (Nat.succ_pos _) (Nat.succ_pos 5) :)
  · rintro rfl
    exact h.image hav0 hav1

/-- The 42 pointers that the count announces are not there. -/
theorem Mmu.Prepared.not_image (h : mmu.Prepared argv1 stack sp av0 av1) (argv : List CString) :
    ¬ ProcessImage { stack := stack, machine := unpushed entry sp (ramFirst others mmu) } entry
      (BitVec.ofNat 32 argv.length) argv := by
  rintro ⟨-, -, pointers, hwords, hpointers, -⟩
  have hwords' := @h.showsWords others
  have hcount : BitVec.ofNat 32 argv.length = 42 :=
    hwords.common hwords' (Nat.succ_pos _) (Nat.succ_pos 5)
  have hmod := congrArg BitVec.toNat hcount
  have hlength := hpointers.length_eq
  rw [BitVec.toNat_ofNat] at hmod
  have hmany : 3 ≤ pointers.length := by
    have hnum : (42 : Word).toNat = 42 := rfl
    rw [hnum] at hmod
    omega
  match pointers, hmany with
  | _ :: _ :: p :: rest, _ =>
      have hnull : p = 0 :=
        hwords.common hwords' (show 3 < _ by simp) (show 3 < 6 by decide)
      match argv, hpointers with
      | _ :: _ :: _ :: _, .cons _ (.cons _ (.cons hp _)) => exact hp.1 hnull

end Image

/-- Requests whose rounded sizes fit in a row behind the bump pointer are granted. -/
theorem Mmu.allocates_of_room {mmu : Mmu} {perm : Perm} {ns : List Word} (hpointed : mmu.Pointed)
    (hpos : 0 < mmu.currVaddr.toNat)
    (hroom : mmu.currVaddr.toNat + (ns.map roundUp).sum < mmu.limit) (hlimit : mmu.limit ≤ 2 ^ 32) :
    mmu.Allocates perm (ns.map wide) := by
  induction ns generalizing mmu with
  | nil => trivial
  | cons n ns ih =>
      rw [List.map_cons, List.sum_cons] at hroom
      have hlt : mmu.currVaddr.toNat < 2 ^ 32 := by omega
      have hn : roundUp n < 2 ^ 32 := by omega
      have hfree : ¬ mmu.Full n := by
        unfold Mmu.Full
        omega
      have hplaced := Mmu.allocate_placed perm hpointed hfree hpos hlt hn
      have hnext := Mmu.placed_currVaddr perm hlt hn
      have hbase := hpointed.base_le
      have hr := Mmu.start_ne_zero hpos hlt
      refine ⟨_, _, hplaced, hr, ih ⟨hpointed.sized, ?_⟩ ?_ ?_ hlimit⟩
      · show mmu.base.toNat ≤ (mmu.placed n perm).currVaddr.toNat
        omega
      · omega
      · show (mmu.placed n perm).currVaddr.toNat + (ns.map roundUp).sum < mmu.limit
        omega

/-- `emulator_init` makes the memory to RAM's window. -/
theorem emulatorInit_matches {heap : Heap} {videoInit : Mmu → Option Mmu} {mmu : Mmu}
    (hvideo : ∀ m m', videoInit m = some m' → m'.base = m.base ∧ m'.size = m.size)
    (hinit : emulatorInit heap videoInit = .ok (some mmu)) : mmu.MatchesRam := by
  obtain ⟨made, hmade, hinit⟩ := Transition.exists_of_bind_ok hinit
  obtain ⟨m, rfl, hm⟩ := Option.bind_eq_some_iff.mp (Except.ok.inj hinit)
  obtain ⟨hbase, hsize⟩ := hvideo m mmu hm
  have hfresh := mmuInit_fresh hmade
  exact ⟨hbase.trans hfresh.base, hsize.trans hfresh.size⟩

/-- When the stack and both strings find room, the core starts with the image of a process
that has 42 arguments, whatever the file and the string: the pointers, the strings and the
rest are right, and no list of arguments has the count that is pushed. -/
theorem processImage_count {heap : Heap} {videoInit : Mmu → Option Mmu} {mmu mmu' : Mmu}
    {granted : Bool} {heaps : Nat → Heap} {file : ElfFile} {elf : Elf32} {argv1 : CString}
    (hvideo : ∀ m m', videoInit m = some m' → m'.base = m.base ∧ m'.size = m.size)
    (hinit : emulatorInit heap videoInit = .ok (some mmu))
    (hload : elfLoad granted heaps file mmu = .ok (some elf, mmu')) (hends : file.EndsInRam)
    (halloc : mmu'.Allocates (mpermWrite ||| mpermRaw)
      [wide stackSize, strlen argv0 + 1, strlen argv1 + 1]) (others : List Device) :
    ∃ s, emulatorRun elf argv1 (ramFirst others mmu') = .ok s ∧
      (∀ argc, ProcessImage s elf.entry argc [argv0, argv1] ↔ argc = 42) ∧
      ∀ argv, ¬ ProcessImage s elf.entry (BitVec.ofNat 32 argv.length) argv := by
  have hram := elfLoad_matches hends (emulatorInit_matches hvideo hinit) hload
  obtain ⟨stack, sp, av0, av1, m, hrun, hav0, hav1, hprepared⟩ :=
    @emulatorRun_prepared others mmu' elf argv1 hram halloc
  exact ⟨_, hrun, fun _ => hprepared.image_iff hav0 hav1, hprepared.not_image⟩

/-- `"a"`. -/
def letter : CString where
  bytes := [0x61]
  nonzero := by decide
  sized := by decide

/-- The loader leaves the bump pointer behind the only segment. -/
theorem noteFile_currVaddr :
    (noteFile.image (fun _ => generousHeap) initialMmu noteFile.phnum).currVaddr = 0x10024 := by
  have hfirst : noteFile.image (fun _ => generousHeap) initialMmu 1 = initialMmu :=
    ElfFile.image_succ_of_not_loads noteFile_note
  have hextends : ¬ initialMmu.Extends 0x10000 (wide 36) := by decide
  rw [noteFile_phnum, ElfFile.image_succ_of_loads noteFile_segment_loads, noteFile_segment, hfirst,
    Mmu.loaded, Mmu.grown_inside hextends]
  rfl

/-- The file is loaded, and the blocks of the start find room behind it. -/
theorem noteFile_granted : ∃ elf mmu',
    elfLoad true (fun _ => generousHeap) noteFile initialMmu = .ok (some elf, mmu') ∧
    mmu'.Allocates (mpermWrite ||| mpermRaw)
      [wide stackSize, strlen argv0 + 1, strlen letter + 1] := by
  have hram : initialMmu.MatchesRam := ⟨rfl, rfl⟩
  have hplaced := @ElfFile.StartsAt.placed noteFile (fun _ => generousHeap) initialMmu _
    noteFile_startsAt_ram hram.sized (fun _ => generousHeap_generous) (Nat.le_refl _)
  have hload := (elfLoad_iff noteFile_wellFormed hram.sized).mpr ⟨rfl, hplaced, rfl, rfl⟩
  have hram' := elfLoad_matches noteFile_endsInRam hram hload
  have hcurr : (noteFile.image (fun _ => generousHeap) initialMmu
      noteFile.phnum).currVaddr.toNat = 0x10024 := by
    rw [noteFile_currVaddr]
    rfl
  have hend : ramEnd.toNat = 0x7ffff := rfl
  have hlimit : (noteFile.image (fun _ => generousHeap) initialMmu noteFile.phnum).limit =
      0x7ffff := hram'.limit_eq
  have hsizes : ([stackSize, 15, 2].map roundUp).sum = 4128 := by decide
  refine ⟨_, _, hload, @Mmu.allocates_of_room _ _ [stackSize, 15, 2] ⟨hram'.sized, ?_⟩ ?_ ?_ ?_⟩
  · rw [hcurr, hram'.base]
    decide
  · omega
  · omega
  · omega

/-- The start with one argument: everything is in place, and the count is 42. -/
theorem noteFile_process : ∃ elf mmu' s,
    emulatorInit generousHeap some = .ok (some initialMmu) ∧
    elfLoad true (fun _ => generousHeap) noteFile initialMmu = .ok (some elf, mmu') ∧
    emulatorRun elf letter (mainBus mmu') = .ok s ∧
    ProcessImage s elf.entry 42 [argv0, letter] := by
  obtain ⟨elf, mmu', hload, halloc⟩ := noteFile_granted
  obtain ⟨s, hrun, hcount, -⟩ := processImage_count (fun m m' hm => by cases hm; exact ⟨rfl, rfl⟩)
    (show emulatorInit generousHeap some = .ok (some initialMmu) from rfl) hload
    noteFile_endsInRam halloc [csrMmioDevice .ready]
  exact ⟨elf, mmu', s, rfl, hload, hrun, (hcount 42).mpr rfl⟩

/-- The program is given two arguments, its name and a letter, and not the count 2. -/
theorem noteFile_miscounted : ∃ elf mmu' s,
    emulatorInit generousHeap some = .ok (some initialMmu) ∧
    elfLoad true (fun _ => generousHeap) noteFile initialMmu = .ok (some elf, mmu') ∧
    noteFile.EndsInRam ∧
    mmu'.Allocates (mpermWrite ||| mpermRaw)
      [wide stackSize, strlen argv0 + 1, strlen letter + 1] ∧
    emulatorRun elf letter (mainBus mmu') = .ok s ∧
    ¬ ProcessImage s elf.entry 2 [argv0, letter] := by
  obtain ⟨elf, mmu', hload, halloc⟩ := noteFile_granted
  have hinit : initialMmu.MatchesRam := ⟨rfl, rfl⟩
  have hram := elfLoad_matches noteFile_endsInRam hinit hload
  obtain ⟨stack, sp, av0, av1, m, hrun, -, -, hprepared⟩ :=
    @emulatorRun_prepared [csrMmioDevice .ready] mmu' elf letter hram halloc
  exact ⟨elf, mmu', _, rfl, hload, noteFile_endsInRam, halloc, hrun,
    hprepared.not_image [argv0, letter]⟩

end CRiscV
