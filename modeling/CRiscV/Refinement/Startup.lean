/-
What the start of the emulator leaves in memory: the strings in their blocks, and the words
pushed onto the stack.  Loading a file into RAM does not move the bounds of the memory, and
every write of the start goes to a byte that waits for it.
-/
import CRiscV.Bus.Block
import CRiscV.Core.Control
import CRiscV.Emulator.Start
import CRiscV.Mmu.Cells
import CRiscV.Refinement.Window

namespace CRiscV

open Transition

/-- The memory and RAM's window have the same bounds. -/
structure Mmu.MatchesRam (mmu : Mmu) : Prop where
  base : mmu.base = ramStart
  size : mmu.size = wide ramSize

section Ram

variable {mmu mmu' : Mmu} {heap : Heap} {file : ElfFile}

theorem Mmu.MatchesRam.layout (h : mmu.MatchesRam) (hlayout : mmu.SameLayout mmu') :
    mmu'.MatchesRam := by
  obtain ⟨data, perm, dirty, state, rfl⟩ := hlayout
  exact ⟨h.base, h.size⟩

theorem Mmu.MatchesRam.sized (h : mmu.MatchesRam) : mmu.size.toNat < 2 ^ 63 := by
  rw [h.size]
  decide

theorem Mmu.MatchesRam.limit_eq (h : mmu.MatchesRam) :
    mmu.base.toNat + mmu.size.toNat = ramEnd.toNat := by
  rw [h.base, h.size]
  decide

/-- Memory that ends in RAM is not extended. -/
theorem mmuAddMemory_matches {addr : Vaddr} {size : Word} {perm : Perm} (h : mmu.MatchesRam)
    (hend : addr.toNat + size.toNat ≤ ramEnd.toNat) :
    Returns (fun x => x.2.MatchesRam) (mmuAddMemory heap mmu addr (wide size) perm) := by
  rintro ⟨added, m⟩ hadd
  have hnot : ¬ mmu.Extends addr (wide size) := by
    rw [Mmu.extends_iff h.sized (wide_lt size), h.limit_eq, wide_toNat]
    omega
  cases mmuAddMemory_cases hadd with
  | inside _ hlayout =>
      refine Mmu.MatchesRam.layout ?_ hlayout
      exact ⟨h.base, h.size⟩
  | extended hextends => exact absurd hextends hnot
  | refused hextends => exact absurd hextends hnot

theorem elfLoadSegment_matches {phdr : Nat} (h : mmu.MatchesRam)
    (hend : (file.phdrAt phdr).vaddr.toNat + (file.phdrAt phdr).memsz.toNat ≤ ramEnd.toNat) :
    Returns (fun x => x.2.MatchesRam) (elfLoadSegment heap file phdr mmu) := by
  intro x hload
  obtain ⟨vaddr, hvaddr, hload⟩ := exists_of_bind_ok hload
  obtain ⟨memsz, hmemsz, hload⟩ := exists_of_bind_ok hload
  obtain ⟨⟨added, m⟩, hadd, hload⟩ := exists_of_bind_ok hload
  have hvaddr' : (file.phdrAt phdr).vaddr = vaddr := (of_ite_ok hvaddr).2
  have hmemsz' : (file.phdrAt phdr).memsz = memsz := (of_ite_ok hmemsz).2
  rw [hvaddr', hmemsz'] at hend
  have hram : m.MatchesRam := mmuAddMemory_matches h hend _ hadd
  cases added with
  | false =>
      cases hload
      exact hram
  | true =>
      obtain ⟨offset, -, hload⟩ := exists_of_bind_ok hload
      obtain ⟨filesz, -, hload⟩ := exists_of_bind_ok hload
      obtain ⟨⟨count, m'⟩, hwrite, hload⟩ := exists_of_bind_ok hload
      obtain ⟨-, -, hload⟩ := exists_of_bind_ok hload
      obtain ⟨flags, -, hload⟩ := exists_of_bind_ok hload
      obtain ⟨m'', hperm, hload⟩ := exists_of_bind_ok hload
      cases hload
      exact (hram.layout (mmuWriteFrom_layout hwrite)).layout (mmuSetperm_layout hperm)

theorem elfLoadLoop_matches {heaps : Nat → Heap} (hends : file.EndsInRam) {is : List Nat}
    (his : ∀ i ∈ is, i < file.phnum) (h : mmu.MatchesRam) :
    Returns (fun x => x.2.MatchesRam) (elfLoadLoop heaps file file.phoff is mmu) := by
  induction is generalizing mmu with
  | nil => exact returns_ok h
  | cons i is ih =>
      have hturn : Returns (fun x => x.2.MatchesRam)
          (elfLoadPhdr (heaps i) file (file.phoff + Elf32Phdr.size * i) mmu) := by
        intro x hload
        obtain ⟨type, htype, hload⟩ := exists_of_bind_ok hload
        have htype' : (file.phdr i).type = type := (of_ite_ok htype).2
        by_cases hone : type = 1
        · rw [if_pos hone] at hload
          have hloads : (file.phdr i).Loads := htype'.trans hone
          exact elfLoadSegment_matches h (hends i (his i List.mem_cons_self) hloads) x hload
        · rw [if_neg hone] at hload
          cases hload
          exact h
      refine returns_bind hturn ?_
      rintro ⟨loaded, m⟩ hram
      cases loaded with
      | true => exact ih (fun j hj => his j (List.mem_cons_of_mem i hj)) hram
      | false => exact returns_ok hram

/-- A file whose segments end in RAM leaves the bounds of the memory alone. -/
theorem elfLoad_matches {granted : Bool} {heaps : Nat → Heap} {elf : Option Elf32}
    (hends : file.EndsInRam) (h : mmu.MatchesRam)
    (hload : elfLoad granted heaps file mmu = .ok (elf, mmu')) : mmu'.MatchesRam := by
  cases granted with
  | false =>
      cases hload
      exact h
  | true =>
      obtain ⟨eiClass, -, hload⟩ := exists_of_bind_ok hload
      obtain ⟨-, hload⟩ := of_ite_error hload
      obtain ⟨eiData, -, hload⟩ := exists_of_bind_ok hload
      obtain ⟨-, hload⟩ := of_ite_error hload
      obtain ⟨phoff, hphoff, hload⟩ := exists_of_bind_ok hload
      obtain ⟨phnum, hphnum, hload⟩ := exists_of_bind_ok hload
      obtain ⟨⟨loaded, m⟩, hloop, hload⟩ := exists_of_bind_ok hload
      obtain rfl : file.wordAt Elf32Ehdr.ePhoff = phoff := (of_ite_ok hphoff).2
      obtain rfl : file.halfAt Elf32Ehdr.ePhnum = phnum := (of_ite_ok hphnum).2
      have hram : m.MatchesRam := by
        apply elfLoadLoop_matches hends _ h _ hloop
        exact fun i hi => List.mem_range.mp hi
      cases loaded with
      | false =>
          cases hload
          exact hram
      | true =>
          obtain ⟨entry, -, hload⟩ := exists_of_bind_ok hload
          cases hload
          exact hram

end Ram

/-! ## Writes to RAM, the first device -/

section Writes

variable {others : List Device} {mmu : Mmu} {v : Vaddr}

/-- An address of the memory is one of the window. -/
theorem Mmu.MatchesRam.covers {Q : Nat → BitVec 8 × Perm → Prop} {n : Nat} (h : mmu.MatchesRam)
    (hpos : 0 < n) (hcells : Region.Holds mmu.cells v.toNat n Q) :
    (ramDevice .ready).covers (wide v) = true := by
  obtain ⟨hlo, hhi⟩ := Mmu.cells_bounds hcells hpos
  rw [h.limit_eq] at hhi
  rw [h.base] at hlo
  rw [ramDevice_covers_iff]
  omega

theorem ramFirst_writeSingle {value : Word} (h : mmu.MatchesRam)
    (hraw : Region.Holds mmu.cells v.toNat 4 fun _ => Raw) :
    busWriteSingle (ramFirst others mmu) (wide v) value .word =
      .ok (ramFirst others (mmu.written (Bytes.byteAt value) v Width.word.bytes)) := by
  have hroute := @ramFirst_routes others mmu _ (h.covers (by decide) hraw)
  have haccepts : mmu.Accepts ((wide v).setWidth 32) Width.word.bytes mpermWrite := by
    rw [setWidth_wide]
    exact Mmu.accepts_write_of_raw h.sized (by decide) hraw
  have hwrite := @writeRamSingle_accepted (ramDevice .ready) mmu _ value .word haccepts
  rw [busWriteSingle_routed rfl hroute (by decide)]
  show (writeRamSingle (ramDevice .ready) mmu ((wide v).setWidth 32) value .word >>= _) = _
  rw [hwrite, setWidth_wide]
  rfl

theorem ramFirst_writeMultiple {n : Size} (src : Nat → BitVec 8) (h : mmu.MatchesRam)
    (hpos : 0 < n.toNat) (hraw : Region.Holds mmu.cells v.toNat n.toNat fun _ => Raw) :
    busWriteMultiple (ramFirst others mmu) (wide v) src n .byte =
      .ok (n, ramFirst others (mmu.written src v n)) := by
  have hroute := @ramFirst_routes others mmu _ (h.covers hpos hraw)
  have hbytes : n * widthMult .byte = n := BitVec.mul_one n
  have haccepts : mmu.Accepts ((wide v).setWidth 32) (n * widthMult .byte) mpermWrite := by
    rw [setWidth_wide, hbytes]
    exact Mmu.accepts_write_of_raw h.sized hpos hraw
  have hn : (n * widthMult .byte).toNat < 2 ^ 63 := by
    obtain ⟨hlo, hhi⟩ := Mmu.cells_bounds hraw hpos
    have hsized := h.sized
    rw [hbytes]
    omega
  have hwrite := writeRam_block_accepted src (ramDevice .ready) hn haccepts
  rw [busWriteMultiple_routed rfl hroute, if_neg (fun hne => hne (by decide)),
    if_neg (fun hne => hne rfl)]
  show (writeRam (ramDevice .ready) mmu ((wide v).setWidth 32) src n .byte >>= _) = _
  rw [hwrite, setWidth_wide, hbytes, ok_bind, if_neg (fun hne => hne rfl)]
  rfl

end Writes

/-! ## The stack -/

/-- A word as its four bytes in memory. -/
def WordCell (w : Word) (i : Nat) : BitVec 8 × Perm → Prop := Reads (Bytes.byteAt w i)

/-- The words of `xs`, the last pushed first, are on the core's stack, which has `[lo, top)`;
the memory was `start` before the first of them. -/
structure Machine.Pushed (others : List Device) (start : Mmu) (lo top : Nat) (m : Machine)
    (xs : List Word) : Prop where
  wired : m.bus = ramFirst others m.bus.mmu
  ram : m.bus.mmu.MatchesRam
  stack : Region.Stack 4 Raw WordCell start.cells m.bus.mmu.cells lo top
    (m.core.registers 2).toNat xs

section Push

variable {others : List Device} {start : Mmu} {lo top : Nat} {m : Machine} {xs : List Word}

theorem sub_four_toNat {v : Vaddr} (h : 4 ≤ v.toNat) : (v - 4).toNat = v.toNat - 4 := by
  have hfour : (4 : Vaddr).toNat = 4 := rfl
  rw [BitVec.toNat_sub_of_le (by rwa [BitVec.le_def, hfour]), hfour]

/-- The machine with another stack pointer, on another bus. -/
def Machine.withStack (m : Machine) (sp : Word) (bus : Bus) : Machine :=
  { m with
    core := { m.core with registers := Function.update m.core.registers 2 sp }
    bus := bus }

@[simp] theorem Machine.withStack_sp (m : Machine) (sp : Word) (bus : Bus) :
    (m.withStack sp bus).core.registers 2 = sp := by
  simp only [withStack, Function.update_self]

@[simp] theorem Machine.withStack_withStack (m : Machine) (sp sp' : Word) (bus bus' : Bus) :
    (m.withStack sp bus).withStack sp' bus' = m.withStack sp' bus' := by
  simp only [withStack, Function.update_idem]

theorem Machine.withStack_self (m : Machine) : m.withStack (m.core.registers 2) m.bus = m := by
  simp only [withStack, Function.update_eq_self]

theorem push_eq (m : Machine) (x : Word) :
    push m x = busWriteSingle m.bus (wide (m.core.registers 2 - 4)) x .word >>= fun bus =>
      .ok (m.withStack (m.core.registers 2 - 4) bus) := rfl

/-- One push: a word more, below the others. -/
theorem push_pushed (h : m.Pushed others start lo top xs)
    (hroom : lo + 4 ≤ (m.core.registers 2).toNat) (x : Word) :
    ∃ bus, push m x = .ok (m.withStack (m.core.registers 2 - 4) bus) ∧
      (m.withStack (m.core.registers 2 - 4) bus).Pushed others start lo top (x :: xs) := by
  obtain ⟨hwired, hram, hstack⟩ := h
  have hsp := sub_four_toNat (show 4 ≤ (m.core.registers 2).toNat by omega)
  have hraw : Region.Holds m.bus.mmu.cells (m.core.registers 2 - 4).toNat 4 fun _ => Raw :=
    hstack.free.part (by omega) (by omega)
  have hlo := (Mmu.cells_bounds hraw (by decide)).1
  have hword : Width.word.bytes.toNat = 4 := rfl
  have hwrite := @ramFirst_writeSingle others _ _ x hram hraw
  have hbeside := @Mmu.written_beside m.bus.mmu _ Width.word.bytes (Bytes.byteAt x)
    (by decide) hlo
  have hreads := @Mmu.written_reads m.bus.mmu _ Width.word.bytes (Bytes.byteAt x)
    (by decide) (by decide) hraw
  rw [← hwired] at hwrite
  rw [hword, hsp, Nat.sub_add_cancel (by omega)] at hbeside
  rw [hword, hsp] at hreads
  refine ⟨ramFirst others
    (m.bus.mmu.written (Bytes.byteAt x) (m.core.registers 2 - 4) Width.word.bytes), ?_, rfl,
    hram.layout ⟨_, _, _, _, rfl⟩, ?_⟩
  · rw [push_eq, hwrite, ok_bind]
  · rw [Machine.withStack_sp, hsp]
    exact hstack.push hroom hbeside hreads

/-- A row of pushes. -/
theorem pushes_pushed {ws : List Word} (h : m.Pushed others start lo top xs)
    (hroom : lo + 4 * ws.length ≤ (m.core.registers 2).toNat) :
    ∃ sp bus, ws.foldlM push m = .ok (m.withStack sp bus) ∧
      (m.withStack sp bus).Pushed others start lo top (ws.reverse ++ xs) := by
  induction ws generalizing m xs with
  | nil =>
      refine ⟨m.core.registers 2, m.bus, ?_⟩
      rw [Machine.withStack_self]
      exact ⟨rfl, h⟩
  | cons x ws ih =>
      rw [List.length_cons] at hroom
      obtain ⟨bus, hpush, hpushed⟩ := push_pushed h (by omega) x
      have hsp := sub_four_toNat (show 4 ≤ (m.core.registers 2).toNat by omega)
      have hroom' : lo + 4 * ws.length ≤
          ((m.withStack (m.core.registers 2 - 4) bus).core.registers 2).toNat := by
        rw [Machine.withStack_sp, hsp]
        omega
      obtain ⟨sp, bus', hrest, hpushed'⟩ := ih hpushed hroom'
      rw [Machine.withStack_withStack] at hrest hpushed'
      refine ⟨sp, bus', ?_, ?_⟩
      · rw [List.foldlM_cons, hpush, ok_bind, hrest]
      · rw [List.reverse_cons, List.append_assoc, List.singleton_append]
        exact hpushed'

end Push

/-! ## The blocks -/

/-- Requests for these sizes, one after the other, are all granted. -/
def Mmu.Allocates (perm : Perm) : Mmu → List Size → Prop
  | _, [] => True
  | mmu, n :: ns => ∃ r mmu', mmuAllocate mmu n perm = .ok (r, mmu') ∧ r ≠ 0 ∧
      mmu'.Allocates perm ns

theorem CString.size_toNat (s : CString) : (strlen s + 1).toNat = s.bytes.length + 1 := by
  have hsized := s.sized
  have hone : (1 : Size).toNat = 1 := rfl
  rw [strlen, BitVec.toNat_add, BitVec.toNat_ofNat, hone]
  omega

section Blocks

variable {others : List Device} {mmu mmu' mmu₁ mmu₁' : Mmu} {n n' : Size} {perm : Perm}
  {r r' : Vaddr} {s : CString}

theorem Mmu.Takes.ram (h : mmu.Takes n perm r mmu') (hram : mmu.MatchesRam) :
    mmu'.MatchesRam := ⟨h.base.trans hram.base, h.size.trans hram.size⟩

/-- A block for data waits for its first write. -/
theorem Mmu.Takes.raw (h : mmu.Takes n (mpermWrite ||| mpermRaw) r mmu') :
    Region.Holds mmu'.cells r.toNat n.toNat fun _ => Raw := by
  apply h.block.imp
  rintro i ⟨x, p⟩ rfl
  exact (by decide : (mpermWrite ||| mpermRaw) &&& mpermRaw = mpermRaw)

/-- The next block lies behind, whatever is written in between. -/
theorem Mmu.Takes.behind (h : mmu.Takes n perm r mmu') (hram : mmu.MatchesRam)
    (hn : n.toNat + 15 < 2 ^ 32) (hlayout : mmu'.SameLayout mmu₁)
    (h' : mmu₁.Takes n' perm r' mmu₁') : r.toNat + n.toNat ≤ r'.toNat := by
  have hround := alignedSize_toNat hn
  have hroom := h.room
  have hnext := h.next
  have hcurr : mmu₁.currVaddr = mmu'.currVaddr := by
    obtain ⟨data, p, dirty, state, rfl⟩ := hlayout
    rfl
  have hend : ramEnd.toNat < 2 ^ 32 := ramEnd.isLt
  rw [hram.limit_eq] at hroom
  rw [h'.start, hcurr, BitVec.toNat_setWidth, hnext]
  omega

/-- The string stands in its block, and the rest of the memory is as it was. -/
theorem allocateString_reads (hram : mmu.MatchesRam)
    (htakes : mmu.Takes (strlen s + 1) (mpermWrite ||| mpermRaw) r mmu')
    (hcall : mmuAllocate mmu (strlen s + 1) (mpermWrite ||| mpermRaw) = .ok (r, mmu')) :
    ∃ mmu'', allocateString (ramFirst others mmu) s = .ok (r, ramFirst others mmu'') ∧
      mmu'.SameLayout mmu'' ∧
      Region.Beside mmu.cells mmu''.cells r.toNat (r.toNat + (strlen s + 1).toNat) ∧
      Region.Holds mmu''.cells r.toNat (strlen s + 1).toNat fun i => Reads (s.byte i) := by
  have hsize := s.size_toNat
  have hsized := s.sized
  have hraw := htakes.raw
  have hlo : mmu'.base.toNat ≤ r.toNat := htakes.base ▸ htakes.inside.1
  have hwrite := @ramFirst_writeMultiple others mmu' r _ s.byte (htakes.ram hram) (by omega)
    hraw
  refine ⟨mmu'.written s.byte r (strlen s + 1), ?_, ⟨_, _, _, _, rfl⟩, ?_, ?_⟩
  · have hperm : mpermRaw ||| mpermWrite = mpermWrite ||| mpermRaw := rfl
    unfold allocateString
    rw [hperm]
    show (mmuAllocate mmu (strlen s + 1) (mpermWrite ||| mpermRaw) >>= _) = _
    rw [hcall, ok_bind]
    show (busWriteMultiple (ramFirst others mmu') (wide r) s.byte (strlen s + 1) .byte >>= _) = _
    rw [hwrite]
    rfl
  · exact htakes.beside.trans (Mmu.written_beside (by omega) hlo)
  · exact Mmu.written_reads (by omega) (by omega) hraw

end Blocks

/-! ## The start -/

/-- A core at its start, with this stack pointer. -/
def startCore (entry : Vaddr) (sp : Word) : Core :=
  { coreInit cpuInitCore 0 entry with registers := emulatorRunRegs sp }

/-- The machine in front of the first push. -/
def unpushed (entry stackTop : Vaddr) (bus : Bus) : Machine :=
  { core := startCore entry stackTop, bus := bus, calls := [] }

theorem update_emulatorRunRegs (sp sp' : Word) :
    Function.update (emulatorRunRegs sp) 2 sp' = emulatorRunRegs sp' := by
  funext r
  by_cases hr : r = 2
  · subst hr
    rw [Function.update_self]
    rfl
  · rw [Function.update_of_ne hr, emulatorRunRegs, emulatorRunRegs, if_neg hr, if_neg hr]

theorem unpushed_withStack (entry stackTop : Vaddr) (sp : Word) (bus bus' : Bus) :
    (unpushed entry stackTop bus).withStack sp bus' = unpushed entry sp bus' := by
  simp only [Machine.withStack, unpushed, startCore, update_emulatorRunRegs]

theorem startRegs_eq (stackTop : Word) :
    Function.update (Function.update (fun _ => 0) 1 0x1337c0de) 2 stackTop =
      emulatorRunRegs stackTop := by
  rw [← update_emulatorRunRegs 0 stackTop]
  congr 1
  funext r
  by_cases hr : r = 1
  · subst hr
    rw [Function.update_self]
    rfl
  · rw [Function.update_of_ne hr, emulatorRunRegs, if_neg hr, ite_self]

section Start

variable {others : List Device} {mmu mmu' : Mmu} {elf : Elf32} {argv1 : CString}
  {stack av0 av1 : Vaddr} {bus bus' : Bus}

/-- With its blocks found, the start is a row of pushes. -/
theorem emulatorRun_eq (hstack : mmuAllocateRaw bus.mmu (wide stackSize) = .ok (stack, mmu))
    (hfirst : allocateString { bus with mmu := mmu } argv0 = .ok (av0, bus'))
    {bus'' : Bus} (hsecond : allocateString bus' argv1 = .ok (av1, bus'')) :
    emulatorRun elf argv1 bus =
      [0, 0, 0, av1, av0, 42].foldlM push (unpushed elf.entry (stack + stackSize) bus'') >>=
        fun m => .ok { stack := stack, machine := m } := by
  unfold emulatorRun
  rw [hstack, ok_bind]
  simp only [hfirst, ok_bind, hsecond, List.foldlM_cons, List.foldlM_nil, bind_assoc, pure_bind]
  rw [unpushed, startCore, ← startRegs_eq]
  rfl

/-- What the memory holds when the core starts: the strings, each behind the block before it,
and the pushed words at the end of the stack block. -/
structure Mmu.Prepared (mmu : Mmu) (argv1 : CString) (stack sp av0 av1 : Vaddr) : Prop where
  ram : mmu.MatchesRam
  pointer : sp.toNat + 24 = stack.toNat + stackSize.toNat
  words : Region.Laid 4 WordCell mmu.cells sp.toNat [42, av0, av1, 0, 0, 0]
  above : stack.toNat + stackSize.toNat ≤ av0.toNat
  apart : av0.toNat + (strlen argv0 + 1).toNat ≤ av1.toNat
  first : Region.Holds mmu.cells av0.toNat (strlen argv0 + 1).toNat fun i => Reads (argv0.byte i)
  second : Region.Holds mmu.cells av1.toNat (strlen argv1 + 1).toNat fun i => Reads (argv1.byte i)

/-- In front of the first push the stack is empty, and its block raw. -/
theorem unpushed_pushed {entry : Vaddr} (hram : mmu.MatchesRam)
    (htop : (stack + stackSize).toNat = stack.toNat + stackSize.toNat)
    (hraw : Region.Holds mmu.cells stack.toNat stackSize.toNat fun _ => Raw) :
    (unpushed entry (stack + stackSize) (ramFirst others mmu)).Pushed others mmu
      stack.toNat (stack.toNat + stackSize.toNat) [] := by
  refine ⟨rfl, hram, ?_⟩
  show Region.Stack 4 Raw WordCell mmu.cells mmu.cells _ _ (stack + stackSize).toNat []
  rw [htop]
  refine Region.Stack.empty (Nat.le_add_right _ _) ?_
  rwa [Nat.add_sub_cancel_left]

/-- When the stack and the strings are granted, the start comes to its end, and what lies
below the bump pointer is as it was. -/
theorem emulatorRun_placed (hram : mmu.MatchesRam)
    (halloc : mmu.Allocates (mpermWrite ||| mpermRaw)
      [wide stackSize, strlen argv0 + 1, strlen argv1 + 1]) :
    ∃ stack sp av0 av1 mmu', emulatorRun elf argv1 (ramFirst others mmu) =
        .ok { stack := stack, machine := unpushed elf.entry sp (ramFirst others mmu') } ∧
      av0 ≠ 0 ∧ av1 ≠ 0 ∧ mmu'.Prepared argv1 stack sp av0 av1 ∧
      ∀ a < (mmu.currVaddr.setWidth 32 : Vaddr).toNat, mmu'.cells a = mmu.cells a := by
  obtain ⟨stack, m₁, hstack, hstack0, av0, m₂, hfirst, hav0, av1, m₃, hsecond, hav1, -⟩ := halloc
  have hsize : (wide stackSize).toNat = stackSize.toNat := wide_toNat stackSize
  have hfour : stackSize.toNat = 4096 := rfl
  have hlength0 : (strlen argv0 + 1).toNat = 15 := rfl
  have hlength1 := argv1.size_toNat
  have hsized1 := argv1.sized
  -- the three blocks, and the two strings that are written between the allocations
  have htakes := mmuAllocate_takes hram.sized (by decide) (by decide) hstack hstack0
  have hram₁ := htakes.ram hram
  have htakes0 := mmuAllocate_takes hram₁.sized (by decide) (by decide) hfirst hav0
  obtain ⟨n₂, hwrite0, hlayout0, hbeside0, hreads0⟩ :=
    @allocateString_reads others _ _ _ _ hram₁ htakes0 hfirst
  have hram₂ := (htakes0.ram hram₁).layout hlayout0
  obtain ⟨m₃', hsecond', -⟩ := mmuAllocate_layout hlayout0 hsecond
  have htakes1 := mmuAllocate_takes hram₂.sized (by omega) (by omega) hsecond' hav1
  obtain ⟨n₃, hwrite1, hlayout1, hbeside1, hreads1⟩ :=
    @allocateString_reads others _ _ _ _ hram₂ htakes1 hsecond'
  have hram₃ := (htakes1.ram hram₂).layout hlayout1
  have habove : stack.toNat + stackSize.toNat ≤ av0.toNat := by
    rw [← hsize]
    exact htakes.behind hram (by decide) (.refl m₁) htakes0
  have hapart : av0.toNat + (strlen argv0 + 1).toNat ≤ av1.toNat :=
    htakes0.behind hram₁ (by decide) hlayout0 htakes1
  -- the stack block is still raw
  have hraw := htakes.raw
  rw [hsize] at hraw
  have hraw₃ := (hraw.beside hbeside0 (Or.inl habove)).beside hbeside1 (Or.inl (by omega))
  have htop : (stack + stackSize).toNat = stack.toNat + stackSize.toNat := by
    have hlt := av0.isLt
    rw [BitVec.toNat_add]
    omega
  have hempty := @unpushed_pushed others n₃ stack elf.entry hram₃ htop hraw₃
  obtain ⟨sp, bus, hrun, hpushed⟩ :=
    @pushes_pushed others n₃ _ _ _ [] [0, 0, 0, av1, av0, 42] hempty
      (by
        show stack.toNat + 24 ≤ (stack + stackSize).toNat
        omega)
  rw [unpushed_withStack] at hrun hpushed
  obtain ⟨hwired, hram', hstacked⟩ := hpushed
  have hpointer : sp.toNat + 4 * 6 = stack.toNat + stackSize.toNat := hstacked.pointer
  refine ⟨stack, sp, av0, av1, bus.mmu, ?_, hav0, hav1, ⟨hram', hpointer, hstacked.laid,
    habove, hapart, ?_, ?_⟩, ?_⟩
  · have hstart := @emulatorRun_eq m₁ elf argv1 stack av0 av1 (ramFirst others mmu)
      (ramFirst others n₂) hstack hwrite0 (ramFirst others n₃) hwrite1
    have hbus : bus = ramFirst others bus.mmu := hwired
    rw [hstart, hrun, ok_bind, ← hbus]
  · exact (hreads0.beside hbeside1 (Or.inl hapart)).beside hstacked.frame (Or.inr habove)
  · exact hreads1.beside hstacked.frame (Or.inr (by omega))
  · intro a ha
    rw [← htakes.start] at ha
    have hstacked' : bus.mmu.cells a = n₃.cells a := hstacked.frame a (Or.inl ha)
    rw [hstacked', hbeside1 a (by omega), hbeside0 a (by omega), htakes.beside a (Or.inl ha)]

theorem emulatorRun_prepared (hram : mmu.MatchesRam)
    (halloc : mmu.Allocates (mpermWrite ||| mpermRaw)
      [wide stackSize, strlen argv0 + 1, strlen argv1 + 1]) :
    ∃ stack sp av0 av1 mmu', emulatorRun elf argv1 (ramFirst others mmu) =
        .ok { stack := stack, machine := unpushed elf.entry sp (ramFirst others mmu') } ∧
      av0 ≠ 0 ∧ av1 ≠ 0 ∧ mmu'.Prepared argv1 stack sp av0 av1 := by
  obtain ⟨stack, sp, av0, av1, mmu', hrun, hav0, hav1, hprepared, -⟩ :=
    @emulatorRun_placed others mmu elf argv1 hram halloc
  exact ⟨stack, sp, av0, av1, mmu', hrun, hav0, hav1, hprepared⟩

end Start

end CRiscV
