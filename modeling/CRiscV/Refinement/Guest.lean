/-
A program of the repository on the emulator: `mstrlen` of riscv/hello.c, as the compiler
has put it into riscv/hello, returns the length of every string.
-/
import CRiscV.Isa.Routine
import CRiscV.Refinement.Program

namespace CRiscV

open Isa (User)
open Transition (Run Leads Meeting inputs)

/-! ## Code of a guest -/

/-- These words are in memory from `a` on, and a refill can start at each of them. -/
def World.Holds (w : World) (a : Vaddr) (words : List Word) : Prop :=
  ∀ k v, words[k]? = some v → w.Reads (a + BitVec.ofNat 32 (4 * k)) 32 ∧
    emulatorPlatform.word w (a + BitVec.ofNat 32 (4 * k)) = v

section Code

variable {w : World} {a : Vaddr} {words : List Word} {code : List Isa.Instr} {i : Isa.Instr}
  {k : Nat} {reg reg' : Regs} {Q : User World → Prop}

theorem World.Holds.shows (h : w.Holds a words) (hdecode : words.map Isa.decode = code.map some) :
    emulatorPlatform.Code w a code := by
  intro k i hi
  have hword : (words.map Isa.decode)[k]? = some (some i) := by
    rw [hdecode, List.getElem?_map, hi]
    rfl
  rw [List.getElem?_map] at hword
  obtain ⟨v, hv, hdecoded⟩ := Option.map_eq_some_iff.mp hword
  obtain ⟨hreads, hworded⟩ := h k v hv
  refine ⟨hreads, ?_⟩
  rw [hworded]
  exact hdecoded

/-- The emulator supports what does not store. -/
theorem supports_of_code (hcode : emulatorPlatform.Code w a code) (hi : code[k]? = some i)
    (hstores : i.stores = false) (hfence : i ≠ .fence) :
    ∀ j, emulatorPlatform.Shows (User.at a k reg w).world (User.at a k reg w).pc j →
      (User.at a k reg w).Supports j := by
  intro j hj
  cases (hcode k i hi).unique hj
  refine ⟨hfence, ?_⟩
  intro op rs1 rs2 offset hstore
  rw [hstore] at hstores
  cases hstores

end Code

/-! ## `mstrlen` -/

/-- The words at 0x102a0. -/
def mstrlenWords : List Word :=
  [0x00054783, 0x00050713, 0x00000513, 0x00078c63, 0x00150513, 0x00a707b3, 0x0007c783,
    0xfe079ae3, 0x00008067, 0x00008067]

def mstrlenCode : List Isa.Instr :=
  [ .load .lbu 15 10 0        -- c = *s
  , .imm .addi 14 10 0
  , .imm .addi 10 0 0         -- a0 = 0
  , .branch .beq 15 0 24
  , .imm .addi 10 10 1        -- a0++
  , .reg .add 15 14 10
  , .load .lbu 15 15 0        -- c = s[a0]
  , .branch .bne 15 0 0x1ff4
  , .jalr 0 1 0
  , .jalr 0 1 0 ]

theorem mstrlen_decoded : mstrlenWords.map Isa.decode = mstrlenCode.map some := by
  decide

/-- A string in memory that can be read, up to and with its zero. -/
structure World.String (w : World) (s : Vaddr) (bytes : List (BitVec 8)) : Prop where
  reads : ∀ i ≤ bytes.length, w.Reads (s + BitVec.ofNat 32 i) 1
  byte : ∀ i b, bytes[i]? = some b → w.mmu.memory (s + BitVec.ofNat 32 i) = b ∧ b ≠ 0
  zero : w.mmu.memory (s + BitVec.ofNat 32 bytes.length) = 0

theorem World.String.first_reads {w : World} {s : Vaddr} {bytes : List (BitVec 8)}
    (h : w.String s bytes) : w.Reads s 1 := by
  have hfirst := h.reads 0 (Nat.zero_le _)
  rwa [BitVec.add_zero] at hfirst

theorem World.String.empty_iff {w : World} {s : Vaddr} {bytes : List (BitVec 8)}
    (h : w.String s bytes) : (w.mmu.memory s == 0) = true ↔ bytes.length = 0 := by
  rw [beq_iff_eq]
  constructor
  · intro hnul
    by_contra hne
    have hlt : 0 < bytes.length := by omega
    obtain ⟨hb, hnonzero⟩ := h.byte 0 bytes[0] (List.getElem?_eq_getElem hlt)
    rw [BitVec.add_zero, hnul] at hb
    exact hnonzero hb.symm
  · intro hempty
    have hnul := h.zero
    rwa [hempty, BitVec.add_zero] at hnul

/-- RAM is shorter than the address space. -/
theorem World.String.short {w : World} {s : Vaddr} {bytes : List (BitVec 8)}
    (h : w.String s bytes) : bytes.length < 2 ^ 32 := by
  by_contra hlong
  have hs := s.isLt
  have hreads := h.reads (2 ^ 32 - s.toNat) (by omega)
  have hlow := ramDevice_covers_range.mp (World.covers hreads.1)
  rw [wide_toNat, BitVec.toNat_add, BitVec.toNat_ofNat] at hlow
  omega

/-- The routine has returned the length to its caller, and has kept what it must. -/
structure Returned (u v : User World) (length : Nat) : Prop where
  pc : v.pc = u.reg 1
  length : v.reg 10 = BitVec.ofNat 32 length
  kept : ∀ r, r ≠ 10 → r ≠ 14 → r ≠ 15 → v.reg r = u.reg r
  world : v.world = u.world

/-- The registers that the routine leaves alone. -/
def Spares (u : User World) (reg : Regs) : Prop :=
  ∀ r, r ≠ 10 → r ≠ 14 → r ≠ 15 → reg r = u.reg r

theorem Spares.setReg {u : User World} {reg : Regs} (h : Spares u reg) {r : Isa.Reg}
    (hr : r = 10 ∨ r = 14 ∨ r = 15) (v : Word) : Spares u (Isa.setReg reg r v) := by
  intro x h10 h14 h15
  have hne : x ≠ r := by
    rcases hr with rfl | rfl | rfl
    · exact h10
    · exact h14
    · exact h15
  rw [Isa.setReg_of_ne hne]
  exact h x h10 h14 h15

section Strlen

variable {u : User World} {reg : Regs} {bytes : List (BitVec 8)} {i k : Nat}

theorem mstrlen_ret (hcode : emulatorPlatform.Code u.world u.pc mstrlenCode)
    (hk : mstrlenCode[k]? = some (.jalr 0 1 0)) (hlength : reg 10 = BitVec.ofNat 32 i)
    (hspares : Spares u reg) :
    Leads (SupportedStep emulated) (fun v => Returned u v i) (.at u.pc k reg u.world) := by
  refine hcode.leads hk trivial (supports_of_code hcode hk rfl nofun) trivial (.here ?_)
  have hreg : (emulatorPlatform.after emulated (.at u.pc k reg u.world) (.jalr 0 1 0)).reg = reg :=
    Isa.setReg_zero reg _
  refine ⟨?_, ?_, ?_, rfl⟩
  · exact (BitVec.add_zero (reg 1)).trans (hspares 1 (by decide) (by decide) (by decide))
  · rw [hreg, hlength]
  · rw [hreg]
    exact hspares

/-- A byte from where a register points. -/
theorem after_lbu (a : Word) (k : Nat) (reg : Regs) (w : World) (rd rs1 : Isa.Reg) :
    emulatorPlatform.after emulated (.at a k reg w) (.load .lbu rd rs1 0) =
      { pc := (User.at a k reg w).pc + 4
        reg := Isa.setReg reg rd ((w.mmu.memory (reg rs1)).setWidth 32)
        world := w } := by
  have hoffset : (0 : BitVec 12).signExtend 32 = 0#32 := rfl
  have hbyte : loaded .lbu (fun j => w.mmu.memory
      (reg rs1 + (0 : BitVec 12).signExtend 32 + BitVec.ofNat 32 j)) =
        (w.mmu.memory (reg rs1)).setWidth 32 := by
    show (w.mmu.memory (reg rs1 + (0 : BitVec 12).signExtend 32 + 0#32)).setWidth 32 = _
    rw [hoffset, BitVec.add_zero, BitVec.add_zero]
  rw [← hbyte]
  rfl

theorem reads_lbu {w : World} {reg : Regs} {rd rs1 : Isa.Reg} {a : Word}
    (h : w.Reads (reg rs1) 1) :
    emulatorPlatform.Allows (.at a k reg w) (.load .lbu rd rs1 0) := by
  have hoffset : (0 : BitVec 12).signExtend 32 = 0#32 := rfl
  show w.Reads (reg rs1 + (0 : BitVec 12).signExtend 32) 1
  rw [hoffset, BitVec.add_zero]
  exact h

theorem setWidth_bne_zero (b : BitVec 8) : (b.setWidth 32 != (0 : Word)) = (b != 0) := by
  revert b
  decide

/-- In front of the loop, with `i` bytes counted. -/
structure Counting (u : User World) (bytes : List (BitVec 8)) (i : Nat) (v : User World) :
    Prop where
  below : i < bytes.length
  state : ∃ reg, v = .at u.pc 4 reg u.world ∧ Spares u reg ∧ reg 14 = u.reg 10
  count : v.reg 10 = BitVec.ofNat 32 i

theorem mstrlen_turn (hcode : emulatorPlatform.Code u.world u.pc mstrlenCode)
    (hzero : u.reg 0 = 0) (hstring : u.world.String (u.reg 10) bytes) {v : User World}
    (h : Counting u bytes i v) :
    Leads (SupportedStep emulated)
      (fun v' => Returned u v' bytes.length ∨ Counting u bytes (i + 1) v') v := by
  obtain ⟨hbelow, ⟨reg, rfl, hspares, hstart⟩, hcount⟩ := h
  have hcount' : reg 10 = BitVec.ofNat 32 i := hcount
  have h4 : mstrlenCode[4]? = some (.imm .addi 10 10 1) := rfl
  have h5 : mstrlenCode[5]? = some (.reg .add 15 14 10) := rfl
  have h6 : mstrlenCode[6]? = some (.load .lbu 15 15 0) := rfl
  have h7 : mstrlenCode[7]? = some (.branch .bne 15 0 0x1ff4) := rfl
  let p := u.reg 10 + BitVec.ofNat 32 (i + 1)
  let reg₁ := Isa.setReg reg 10 (BitVec.ofNat 32 (i + 1))
  let reg₂ := Isa.setReg reg₁ 15 p
  let reg₃ := Isa.setReg reg₂ 15 ((u.world.mmu.memory p).setWidth 32)
  have hcounted : emulatorPlatform.after emulated (.at u.pc 4 reg u.world) (.imm .addi 10 10 1) =
      { pc := (User.at u.pc 4 reg u.world).pc + 4, reg := reg₁, world := u.world } := by
    have hsum : BitVec.ofNat 32 (i + 1) = reg 10 + 1 := by
      rw [hcount', BitVec.ofNat_add]
      rfl
    show _ = User.mk _ (Isa.setReg reg 10 (BitVec.ofNat 32 (i + 1))) _
    rw [hsum]
    rfl
  have hpointed : emulatorPlatform.after emulated (.at u.pc 5 reg₁ u.world) (.reg .add 15 14 10) =
      { pc := (User.at u.pc 5 reg₁ u.world).pc + 4, reg := reg₂, world := u.world } := by
    have h14 : reg₁ 14 = u.reg 10 := (Isa.setReg_of_ne (by decide) _).trans hstart
    have h10 : reg₁ 10 = BitVec.ofNat 32 (i + 1) := Isa.setReg_self (by decide) _
    show _ = User.mk _ (Isa.setReg reg₁ 15 (u.reg 10 + BitVec.ofNat 32 (i + 1))) _
    rw [← h14, ← h10]
    rfl
  have hpointer : reg₂ 15 = p := Isa.setReg_self (by decide) _
  have hfetched : emulatorPlatform.after emulated (.at u.pc 6 reg₂ u.world) (.load .lbu 15 15 0) =
      { pc := (User.at u.pc 6 reg₂ u.world).pc + 4, reg := reg₃, world := u.world } := by
    rw [after_lbu, hpointer]
  have hspares₃ : Spares u reg₃ := ((hspares.setReg (by decide) _).setReg (by decide) _).setReg
    (by decide) _
  have hcond : Isa.BranchOp.taken .bne (reg₃ 15) (reg₃ 0) = (u.world.mmu.memory p != 0) := by
    have h15 : reg₃ 15 = (u.world.mmu.memory p).setWidth 32 := Isa.setReg_self (by decide) _
    have h0 : reg₃ 0 = 0 := (hspares₃ 0 (by decide) (by decide) (by decide)).trans hzero
    rw [← setWidth_bne_zero, ← h15, ← h0]
    rfl
  have hlength : reg₃ 10 = BitVec.ofNat 32 (i + 1) :=
    ((Isa.setReg_of_ne (by decide) _).trans (Isa.setReg_of_ne (by decide) _)).trans
      (Isa.setReg_self (by decide) _)
  refine hcode.leads_next h4 trivial (supports_of_code hcode h4 rfl nofun) trivial hcounted ?_
  refine hcode.leads_next h5 trivial (supports_of_code hcode h5 rfl nofun) trivial hpointed ?_
  refine hcode.leads_next h6 trivial (supports_of_code hcode h6 rfl nofun) (reads_lbu ?_) hfetched ?_
  · rw [hpointer]
    exact hstring.reads (i + 1) hbelow
  refine hcode.leads_branch h7 (supports_of_code hcode h7 rfl nofun) (fun _ => rfl)
    (show _ = BitVec.ofNat 32 (4 * 4) by decide) ?_ ?_
  · intro htaken
    have hbyte : (u.world.mmu.memory p != 0) = true := hcond.symm.trans htaken
    have hlt : i + 1 < bytes.length := by
      by_contra hge
      have hend : i + 1 = bytes.length := by omega
      have hnul : u.world.mmu.memory p = 0 := by
        show u.world.mmu.memory (u.reg 10 + BitVec.ofNat 32 (i + 1)) = 0
        rw [hend]
        exact hstring.zero
      rw [hnul] at hbyte
      cases hbyte
    refine .here (Or.inr ⟨hlt, ⟨reg₃, rfl, hspares₃, ?_⟩, ?_⟩)
    · have h14 : reg₃ 14 = reg 14 :=
        ((Isa.setReg_of_ne (by decide) _).trans (Isa.setReg_of_ne (by decide) _)).trans
          (Isa.setReg_of_ne (by decide) _)
      exact h14.trans hstart
    · exact hlength
  · intro hfalls
    have hbyte : (u.world.mmu.memory p != 0) = false := hcond.symm.trans hfalls
    have hend : i + 1 = bytes.length := by
      by_contra hne
      have hlt : i + 1 < bytes.length := by omega
      obtain ⟨hb, hnonzero⟩ := hstring.byte (i + 1) bytes[i + 1] (List.getElem?_eq_getElem hlt)
      have hp : u.world.mmu.memory p = bytes[i + 1] := hb
      rw [hp] at hbyte
      exact hnonzero (by simpa using hbyte)
    rw [← hend]
    exact (mstrlen_ret hcode rfl hlength hspares₃).mono fun v hv => Or.inl hv

theorem mstrlen_loop (hcode : emulatorPlatform.Code u.world u.pc mstrlenCode)
    (hzero : u.reg 0 = 0) (hstring : u.world.String (u.reg 10) bytes) {v : User World}
    (h : Counting u bytes i v) (hshort : bytes.length < 2 ^ 32) :
    Leads (SupportedStep emulated) (fun v' => Returned u v' bytes.length) v := by
  refine @Leads.loop _ _ _ (fun v => ∃ i, Counting u bytes i v) _ v
    (fun v => bytes.length - (v.reg 10).toNat) ?_ ⟨i, h⟩
  rintro v ⟨i, hv⟩
  refine (mstrlen_turn hcode hzero hstring hv).mono fun v' hv' => ?_
  cases hv' with
  | inl hreturned => exact Or.inl hreturned
  | inr hcounting =>
      refine Or.inr ⟨⟨i + 1, hcounting⟩, ?_⟩
      have hbelow := hv.below
      have hbelow' := hcounting.below
      rw [hv.count, hcounting.count, BitVec.toNat_ofNat, BitVec.toNat_ofNat]
      omega

/-- Up to the loop, or past it if the string is empty. -/
theorem mstrlen_enters (hcode : emulatorPlatform.Code u.world u.pc mstrlenCode)
    (hzero : u.reg 0 = 0) (hstring : u.world.String (u.reg 10) bytes) :
    Leads (SupportedStep emulated)
      (fun v => Returned u v bytes.length ∨ Counting u bytes 0 v) (.at u.pc 0 u.reg u.world) := by
  have h0 : mstrlenCode[0]? = some (.load .lbu 15 10 0) := rfl
  have h1 : mstrlenCode[1]? = some (.imm .addi 14 10 0) := rfl
  have h2 : mstrlenCode[2]? = some (.imm .addi 10 0 0) := rfl
  have h3 : mstrlenCode[3]? = some (.branch .beq 15 0 24) := rfl
  let c := u.world.mmu.memory (u.reg 10)
  let reg₁ := Isa.setReg u.reg 15 (c.setWidth 32)
  let reg₂ := Isa.setReg reg₁ 14 (u.reg 10)
  let reg₃ := Isa.setReg reg₂ 10 0
  have hkept : emulatorPlatform.after emulated (.at u.pc 1 reg₁ u.world) (.imm .addi 14 10 0) =
      { pc := (User.at u.pc 1 reg₁ u.world).pc + 4, reg := reg₂, world := u.world } := by
    have h10 : reg₁ 10 + 0#32 = u.reg 10 := (BitVec.add_zero _).trans (Isa.setReg_of_ne (by decide) _)
    show _ = User.mk _ (Isa.setReg reg₁ 14 (u.reg 10)) _
    rw [← h10]
    rfl
  have hcleared : emulatorPlatform.after emulated (.at u.pc 2 reg₂ u.world) (.imm .addi 10 0 0) =
      { pc := (User.at u.pc 2 reg₂ u.world).pc + 4, reg := reg₃, world := u.world } := by
    have h0 : 0 = reg₂ 0 + 0#32 := by
      rw [BitVec.add_zero]
      exact (((Isa.setReg_of_ne (by decide) _).trans (Isa.setReg_of_ne (by decide) _)).trans
        hzero).symm
    show _ = User.mk _ (Isa.setReg reg₂ 10 0) _
    rw [h0]
    rfl
  have hself : Spares u u.reg := fun _ _ _ _ => rfl
  have hspares : Spares u reg₃ :=
    ((hself.setReg (by decide) _).setReg (by decide) _).setReg (by decide) _
  have hlength : reg₃ 10 = BitVec.ofNat 32 0 := Isa.setReg_self (by decide) _
  have hcond : Isa.BranchOp.taken .beq (reg₃ 15) (reg₃ 0) = (c == 0) := by
    have h15 : reg₃ 15 = c.setWidth 32 :=
      ((Isa.setReg_of_ne (by decide) _).trans (Isa.setReg_of_ne (by decide) _)).trans
        (Isa.setReg_self (by decide) _)
    have h0 : reg₃ 0 = 0 := (hspares 0 (by decide) (by decide) (by decide)).trans hzero
    have hne := setWidth_bne_zero c
    rw [← h15, ← h0] at hne
    exact Bool.not_inj hne
  refine hcode.leads_next h0 trivial (supports_of_code hcode h0 rfl nofun) (reads_lbu ?_)
    (after_lbu _ _ _ _ _ _) ?_
  · exact hstring.first_reads
  refine hcode.leads_next h1 trivial (supports_of_code hcode h1 rfl nofun) trivial hkept ?_
  refine hcode.leads_next h2 trivial (supports_of_code hcode h2 rfl nofun) trivial hcleared ?_
  refine hcode.leads_branch h3 (supports_of_code hcode h3 rfl nofun) (fun _ => rfl)
    (show _ = BitVec.ofNat 32 (4 * 9) by decide) ?_ ?_
  · intro htaken
    have hempty := hstring.empty_iff.mp (hcond.symm.trans htaken)
    rw [hempty]
    exact (mstrlen_ret hcode rfl hlength hspares).mono fun v hv => Or.inl hv
  · intro hfalls
    have hnonempty : ¬ bytes.length = 0 := by
      intro hempty
      have hnul := hstring.empty_iff.mpr hempty
      rw [hcond, hnul] at hfalls
      cases hfalls
    refine .here (Or.inr ⟨by omega, ⟨reg₃, rfl, hspares, ?_⟩, hlength⟩)
    exact (Isa.setReg_of_ne (by decide) _).trans (Isa.setReg_self (by decide) _)

end Strlen

/-- `mstrlen` on the emulator: for every string and every host, the loop comes to the
caller's next instruction with the length in a0, and with the memory and the other
registers of the caller as they were. -/
theorem mstrlen_returns {t : Turn} {u : User World} {bytes : List (BitVec 8)}
    (hhosts : u.HostedBy t) (hcode : u.world.Holds u.pc mstrlenWords)
    (hstring : u.world.String (u.reg 10) bytes) (stream : Nat → Host) :
    ∃ n t' v, Run (ThreadStep emulatorTurn) t (inputs stream n) t' ∧ v.HostedBy t' ∧
      Returned u v bytes.length := by
  have hshows := hcode.shows mstrlen_decoded
  have hzero := hhosts.machine.zero
  have hstart : User.at u.pc 0 u.reg u.world = u := by
    show User.mk (u.pc + 0#32) _ _ = u
    rw [BitVec.add_zero]
  have hleads := mstrlen_enters hshows hzero hstring
  rw [hstart] at hleads
  apply program_leads hhosts (hleads.trans fun v hv => ?_) stream
  cases hv with
  | inl hreturned => exact .here hreturned
  | inr hcounting => exact mstrlen_loop hshows hzero hstring hcounting hstring.short

/-- The routine, with a string behind it. -/
def greetingProgram : List Word := mstrlenWords ++ [0x00006968]

/-- At its call with the string. -/
def greetingRegs : Regs := fun r => if r = 10 then 0x10028 else if r = 1 then 0x10200 else 0

theorem greeting_holds : (programWorld greetingProgram).Holds ramStart mstrlenWords := by
  intro k v hv
  obtain ⟨hk, hword⟩ := List.getElem?_eq_some_iff.mp hv
  have hlength : mstrlenWords.length = 10 := rfl
  have haddr := @ramStart_add k (by omega)
  refine ⟨programWorld_reads (by omega) (by omega) (by decide), ?_⟩
  rw [programWorld_word (by omega), greetingProgram, List.getD_eq_getElem?_getD,
    List.getElem?_append_left hk, hv, Option.getD_some]

theorem greeting_string : (programWorld greetingProgram).String 0x10028 [0x68, 0x69] := by
  refine ⟨?_, ?_, rfl⟩
  · intro i hlength
    have hi : i ≤ 2 := hlength
    have hstart : (0x10028 : Word).toNat = 0x10028 := rfl
    have haddr : ((0x10028 : Word) + BitVec.ofNat 32 i).toNat = 0x10028 + i := by
      rw [BitVec.toNat_add, BitVec.toNat_ofNat]
      omega
    exact programWorld_reads (by omega) (by omega) (by decide)
  · intro i b hb
    match i, hb with
    | 0, hb =>
        cases hb
        exact ⟨rfl, by decide⟩
    | 1, hb =>
        cases hb
        exact ⟨rfl, by decide⟩

theorem greeting_returns :
    ∃ n t' v, Run (ThreadStep emulatorTurn)
        (Turn.first (programMachine greetingProgram greetingRegs))
        (inputs (fun _ => quietHost) n) t' ∧ v.HostedBy t' ∧
      Returned (programUser greetingProgram greetingRegs) v 2 := by
  have hstring : (programUser greetingProgram greetingRegs).world.String
      ((programUser greetingProgram greetingRegs).reg 10) [0x68, 0x69] := greeting_string
  exact mstrlen_returns (programUser_hosted rfl) greeting_holds hstring fun _ => quietHost

end CRiscV
