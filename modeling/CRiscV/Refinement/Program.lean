/-
Whole programs: a run of the user on the emulator's platform is made by the thread loop,
five turns for a plain instruction and six for an environment call, whatever the host
leaves in the storage of the emulator and whatever the prefetch buffer holds.
-/
import CRiscV.Refinement.Dispatch
import CRiscV.Refinement.Instruction
import CRiscV.Refinement.Refetch
import CRiscV.Refinement.Refill
import CRiscV.Refinement.World
import CRiscV.Transition.Blocks

namespace CRiscV

open Isa (User)
open Transition (Run Leads Meeting Throughout exists_of_forall₂_snoc inputs)

/-- The user's program counter, registers and world are those of the machine, which is
about to fetch, and every word that it has fetched ahead is the one in memory. -/
structure Machine.Hosts (m : Machine) (u : User World) : Prop where
  state : m.core.state = .fetch
  trapState : m.core.trapState = .none
  pc : m.core.pc = u.pc
  registers : m.core.registers = u.reg
  zero : u.reg 0 = 0
  backs : u.world.Backs m.bus
  calls : m.calls = u.world.calls
  ahead : m.core.Holds u.world.mmu.Serves u.pc

/-! ## The fetch -/

section Fetch

variable {m : Machine} {u : User World} {i : Isa.Instr}

/-- The transfer of a refill. -/
theorem World.Reads.accepts_block {w : World} {a : Vaddr} (h : w.Reads a 32) :
    w.mmu.Accepts a 32 mpermRead := by
  have hsize : (32 : Size).toNat = 32 := rfl
  exact World.Reads.accepts (by rwa [hsize]) (by decide)

theorem World.Reads.word_eq {w : World} {a : Vaddr} {n : Nat} (h : w.Reads a n) (hn : 4 ≤ n) :
    w.mmu.ramWord a = emulatorPlatform.word w a := by
  have hbyte : ∀ i < 4, w.mmu.byteFrom a i = w.mmu.memory (a + BitVec.ofNat 32 i) :=
    fun i hi => h.1.byteFrom_eq (by omega)
  unfold Mmu.ramWord
  rw [Bytes.ofBytes_four, hbyte 0 (by omega), hbyte 1 (by omega), hbyte 2 (by omega),
    hbyte 3 (by omega), BitVec.add_zero]
  rfl

/-- A fetch where the platform lets the user fetch, from memory or from the buffer. -/
structure Machine.Presents (m m' : Machine) (u : User World) : Prop where
  core : m'.core = { m.core with
    state := .decode
    cycle := m.core.cycle + 1
    instruction := emulatorPlatform.word u.world u.pc
    prefetch := m'.core.prefetch
    prefetchCnt := m'.core.prefetchCnt }
  backs : u.world.Backs m'.bus
  calls : m'.calls = m.calls
  ahead : m'.core.Holds u.world.mmu.Serves (u.pc + 4)

/-- From memory, with the words behind it. -/
theorem Machine.Hosts.fetch_refills (h : m.Hosts u) (hfetches : u.world.Reads u.pc 32)
    (hcnt : m.core.prefetchCnt = 0) :
    ∃ bus, u.world.Backs bus ∧ u.pc.toNat < 0x7ffff ∧
      fetch m = .ok { core := m.core.refilled u.world.mmu, bus := bus, calls := m.calls } := by
  obtain ⟨status, state, hbus⟩ := h.backs
  obtain ⟨i, dev, hroute, hram⟩ := hfetches.1.routed
  have hroute' : m.bus.Routes (wide m.core.pc) i dev := by
    rw [h.pc]
    exact h.backs.routes hroute
  have haccepts : m.bus.mmu.Accepts m.core.pc 32 mpermRead := by
    rw [hbus, h.pc]
    exact hfetches.accepts_block
  obtain ⟨m', hfetch, -⟩ := fetch_block_accepted hcnt h.backs.free hroute' hram haccepts
  obtain ⟨-, hlt, -, rfl⟩ := fetch_refilled hbus hcnt hfetch
  rw [h.pc] at hlt
  exact ⟨_, ⟨.ok, .ok, rfl⟩, hlt, hfetch⟩

/-- From the buffer. -/
theorem Machine.Hosts.fetch_buffered (h : m.Hosts u) (hcnt : m.core.prefetchCnt ≠ 0) :
    fetch m = .ok { m with core := { m.core with
      instruction := u.world.mmu.ramWord u.pc
      prefetchCnt := m.core.prefetchCnt - 1 } } := by
  obtain ⟨hle, hholds⟩ := h.ahead
  have hpos : m.core.prefetchCnt.toNat ≠ 0 := fun hzero => hcnt (BitVec.eq_of_toNat_eq hzero)
  have hbound : 7 - m.core.prefetchCnt.toNat < 7 ∧ m.core.prefetchCnt.toNat ≤ 7 := by omega
  have hserved := hholds ⟨7 - m.core.prefetchCnt.toNat, hbound.1⟩ (by simp only; omega)
  have hindex : 4 * (7 - m.core.prefetchCnt.toNat + m.core.prefetchCnt.toNat - 7) = 0 := by omega
  simp only [hindex, BitVec.add_zero] at hserved
  unfold fetch
  rw [if_neg hcnt, dif_pos hbound, hserved.1]

theorem coreCycle_fetch_ok {m' : Machine} {residue : BitVec 8} (hstate : m.core.state = .fetch)
    (hfetch : fetch m = .ok m') (hstate' : m'.core.state = .fetch) :
    coreCycle residue m = .ok (m'.withCore { m'.core with
      state := .decode, cycle := m'.core.cycle + 1 }) := by
  have hne : m'.core.state ≠ .trap := by
    rw [hstate']
    decide
  rw [coreCycle_fetch_eq hstate, hfetch, Transition.ok_bind]
  unfold Machine.advance
  rw [Core.advance_of_ne hne]

theorem Machine.Hosts.presents (h : m.Hosts u) (hfetches : u.world.Reads u.pc 32)
    (residue : BitVec 8) : ∃ m', coreCycle residue m = .ok m' ∧ m.Presents m' u := by
  have hword := hfetches.word_eq (by omega)
  by_cases hcnt : m.core.prefetchCnt = 0
  · obtain ⟨bus, hbacks, hlt, hfetch⟩ := h.fetch_refills hfetches hcnt
    have hserves : ∀ i : Fin 7, u.world.mmu.Serves (m.core.pc + 4 + BitVec.ofNat 32 (4 * i.val))
        (u.world.mmu.ramWord (m.core.pc + BitVec.ofNat 32 (4 * (i.val + 1)))) := by
      intro i
      have hsize : (32 : Size).toNat = 32 := rfl
      have hfour : (4 : Size).toNat = 4 := rfl
      rw [next_word_addr, h.pc]
      exact ⟨rfl, hfetches.accepts_block.sub (by omega) (by have := i.isLt; omega)⟩
    have hne : (m.core.refilled u.world.mmu).state ≠ .trap := by
      show m.core.state ≠ .trap
      rw [h.state]
      decide
    have hahead := refilled_ahead h.state hserves
    rw [Core.advance_of_ne hne, Core.Ahead] at hahead
    refine ⟨_, coreCycle_fetch_ok h.state hfetch h.state, ⟨?_, hbacks, rfl, ?_⟩⟩
    · rw [← hword, ← h.pc]
      rfl
    · rw [← h.pc]
      exact hahead
  · refine ⟨_, coreCycle_fetch_ok h.state (h.fetch_buffered hcnt) h.state,
      ⟨?_, h.backs, rfl, h.ahead.shift hcnt rfl rfl⟩⟩
    rw [← hword]
    rfl

end Fetch

/-- The emulator has the instruction, and it does not store to the seven words behind
itself, which may have been fetched already. -/
structure Isa.User.Supports (u : User World) (i : Isa.Instr) : Prop where
  implemented : i ≠ .fence
  apart : ∀ op rs1 rs2 offset, i = .store op rs1 rs2 offset → ∀ k < 28, ∀ j < op.size,
    u.pc + 4 + BitVec.ofNat 32 k ≠ Isa.Instr.target u.reg i + BitVec.ofNat 32 j

/-! ## The turns of a plain instruction -/

/-- What the memory stage finds. -/
def Machine.issued (m : Machine) (dec : Decoded) (value : Word) : Machine :=
  m.withCore { m.core with
    decoded := dec, aluOut := value, state := .memory, cycle := m.core.cycle + 1 + 1 }

/-- What the last stage finds, of what the memory stage leaves. -/
def Machine.accessed (m : Machine) : Machine :=
  m.withCore { m.core with state := .writeback, cycle := m.core.cycle + 1 }

def Machine.retired (m : Machine) : Machine :=
  m.withCore { writeback m.core with state := .fetch, cycle := m.core.cycle + 1 }

section Plain

variable {t : Turn} {u : User World} {i : Isa.Instr} {m m₁ m₄ : Machine} {dec dec' : Decoded}
  {value : Word} {host₀ host₁ host₂ host₃ host₄ : Host}

theorem quietStep_of_state {m : Machine} {host : Host} (hrunning : t.running = true)
    (hcycle : coreCycle (host.residue 0) t.machine = .ok m) (hne : m.core.state ≠ .trap) :
    ThreadStep emulatorTurn t host (Turn.first m) :=
  (quietStep_of_cycle hrunning hcycle fun htrap => absurd htrap hne).1

/-- Three turns to the memory stage. -/
theorem issue_turns (hrunning : t.running = true)
    (hfetch : coreCycle (host₀.residue 0) t.machine = .ok m₁) (hstate : m₁.core.state = .decode)
    (hissues : m₁.core.Issues dec dec' value) :
    Run (ThreadStep emulatorTurn) t [host₀, host₁, host₂] (Turn.first (m₁.issued dec' value)) := by
  have hne : m₁.core.state ≠ .trap := by
    rw [hstate]
    decide
  have hdecoded : coreCycle (host₁.residue 0) m₁ = .ok (m₁.decodedTo dec) :=
    coreCycle_decode hstate hissues.decodes
  have hexecute := hissues.executes (m₁.decodedTo dec).core rfl rfl
  have hexecuted : coreCycle (host₂.residue 0) (m₁.decodedTo dec) = .ok (m₁.issued dec' value) :=
    coreCycle_execute rfl hexecute rfl
  exact ((Run.nil.snoc (quietStep_of_state hrunning hfetch hne)).snoc
    (quietStep_of_state rfl hdecoded nofun)).snoc (quietStep_of_state rfl hexecuted nofun)

theorem issued_turns (hrunning : t.running = true)
    (hfetch : coreCycle (host₀.residue 0) t.machine = .ok m₁) (hstate : m₁.core.state = .decode)
    (hissues : m₁.core.Issues dec dec' value)
    (hmemory : memoryAccess (host₃.residue 0) (m₁.issued dec' value) = .ok m₄)
    (hnext : m₄.core.state = .memory) :
    Run (ThreadStep emulatorTurn) t [host₀, host₁, host₂, host₃, host₄]
      (Turn.first m₄.accessed.retired) := by
  have haccessed : coreCycle (host₃.residue 0) (m₁.issued dec' value) = .ok m₄.accessed :=
    coreCycle_memory rfl hmemory hnext
  have hretired : coreCycle (host₄.residue 0) m₄.accessed = .ok m₄.accessed.retired :=
    coreCycle_writeback rfl
  exact ((issue_turns hrunning hfetch hstate hissues).snoc
    (quietStep_of_state rfl haccessed nofun)).snoc (quietStep_of_state rfl hretired nofun)

theorem retired_core (m : Machine) : m.accessed.retired.core = { m.core with
    state := .fetch
    cycle := m.core.cycle + 1 + 1
    registers :=
      if m.core.decoded.writeRd then
        regW m.core.registers m.core.decoded.rd m.core.aluOut
      else m.core.registers
    pc := if m.core.decoded.isJump then m.core.decoded.jumpTarget else m.core.pc + 4
    prefetchCnt := if m.core.decoded.isJump then 0 else m.core.prefetchCnt } := by
  unfold Machine.retired Machine.accessed Machine.withCore
  simp only [writeback_eq]

theorem Isa.Hart.after_zero (h : Isa.Hart) (dec : Decoded) (value : Word) :
    (h.after dec value).reg 0 = h.reg 0 := by
  show (if dec.writeRd then Isa.setReg h.reg dec.rd value else h.reg) 0 = h.reg 0
  by_cases hwrite : dec.writeRd = true
  · rw [if_pos hwrite, Isa.setReg_at_zero]
  · rw [if_neg hwrite]

/-- Writing back brings the machine to the user's next state. -/
theorem Machine.Presents.retires {u' : User World} (hhosts : m.Hosts u)
    (h : m.Presents m₁ u)
    (hcore : m₄.core = { m₁.core with
      decoded := dec', aluOut := value, state := .memory, cycle := m₄.core.cycle })
    (hcalls : m₄.calls = m₁.calls) (hbacks : u'.world.Backs m₄.bus)
    (hsame : u'.world.calls = u.world.calls)
    (hpc : ((emulatorPlatform.hart u).after dec' value).pc = u'.pc)
    (hreg : ((emulatorPlatform.hart u).after dec' value).reg = u'.reg)
    (hahead : dec'.isJump = false → m₁.core.Holds u'.world.mmu.Serves (u.pc + 4)) :
    m₄.accessed.retired.Hosts u' := by
  have hretired := retired_core m₄
  rw [hcore, h.core] at hretired
  have hzero : m.core.registers 0 = 0 := by
    rw [hhosts.registers]
    exact hhosts.zero
  have hregs : (if dec'.writeRd then regW m.core.registers dec'.rd value
      else m.core.registers) = u'.reg := by
    rw [regW_eq_setReg hzero, hhosts.registers]
    exact hreg
  have hpc' : (if dec'.isJump then dec'.jumpTarget else m.core.pc + 4) = u'.pc := by
    rw [hhosts.pc]
    exact hpc
  refine ⟨by rw [hretired], by rw [hretired]; exact hhosts.trapState, by rw [hretired]; exact hpc',
    by rw [hretired]; exact hregs, ?_, hbacks, ?_, ?_⟩
  · rw [← hreg, Isa.Hart.after_zero]
    exact hhosts.zero
  · rw [hsame, ← hhosts.calls, ← h.calls, ← hcalls]
    rfl
  · by_cases hjump : dec'.isJump = true
    · apply Core.holds_of_empty
      rw [hretired]
      exact if_pos hjump
    · have hnext : u'.pc = u.pc + 4 := hpc.symm.trans (if_neg hjump)
      rw [hnext]
      refine (hahead (by simpa using hjump)).congr ?_ ?_
      · rw [hretired]
      · rw [hretired]
        exact if_neg hjump

theorem Machine.Presents.at (hhosts : m.Hosts u) (h : m.Presents m₁ u) :
    m₁.core.At (emulatorPlatform.hart u) := by
  refine ⟨?_, ?_, hhosts.zero⟩
  · rw [h.core]
    exact hhosts.pc
  · rw [h.core]
    exact hhosts.registers

/-- The words of the buffer are the seven behind the program counter. -/
theorem Core.Holds.disjoint {core : Core} {mmu : Mmu} {pc a : Word} {src : Nat → BitVec 8}
    {n : Size} (h : core.Holds mmu.Serves (pc + 4)) (hbase : mmu.base.toNat ≤ a.toNat)
    (hapart : ∀ k < 28, ∀ j < n.toNat, pc + 4 + BitVec.ofNat 32 k ≠ a + BitVec.ofNat 32 j) :
    core.Holds (mmu.written src a n).Serves (pc + 4) := by
  obtain ⟨hle, hholds⟩ := h
  refine ⟨hle, ?_⟩
  intro i hi
  apply (hholds i hi).written hbase
  intro b hb j hj
  have := i.isLt
  have hsum : ∀ x y : Nat, pc + 4 + BitVec.ofNat 32 x + BitVec.ofNat 32 y =
      pc + 4 + BitVec.ofNat 32 (x + y) := by
    intro x y
    rw [BitVec.add_assoc, BitVec.ofNat_add]
  rw [hsum]
  exact hapart _ (by omega) j hj

theorem storeWidth_bytes (op : Isa.StoreOp) :
    (storeWidth op).bytes = BitVec.ofNat 64 op.size := by
  cases op <;> decide

theorem stored_of_not_stores (hstores : i.stores = false) :
    emulatorPlatform.stored u i = u.world := by
  cases i with
  | store => cases hstores
  | reg | imm | shift | load | branch | lui | auipc | jal | jalr | fence | ecall | ebreak => rfl

/-- An instruction that leaves memory alone. -/
theorem Machine.Presents.computed (hhosts : m.Hosts u) (h : m.Presents m₁ u)
    (hcarries : dec'.Carries value (emulatorPlatform.hart u) i) (hread : dec'.readMem = false)
    (hwrite : dec'.writeMem = false) (residue : BitVec 8) :
    ∃ m₄, memoryAccess residue (m₁.issued dec' value) = .ok m₄ ∧ m₄.core.state = .memory ∧
      m₄.accessed.retired.Hosts (emulatorPlatform.after emulated u i) := by
  obtain ⟨hstores, hpc, hreg⟩ := hcarries.computed hread hwrite
  have hworld : (emulatorPlatform.after emulated u i).world = u.world :=
    stored_of_not_stores hstores
  refine ⟨_, memoryAccess_none hread hwrite, rfl, h.retires hhosts rfl rfl ?_ ?_ hpc hreg ?_⟩
  · rw [hworld]
    exact h.backs
  · rw [hworld]
  · rw [hworld]
    exact fun _ => h.ahead

theorem Machine.Presents.loaded (hhosts : m.Hosts u) (h : m.Presents m₁ u)
    (hcarries : dec'.Carries value (emulatorPlatform.hart u) i) (hread : dec'.readMem = true)
    (hallows : emulatorPlatform.Allows u i) (residue : BitVec 8) :
    ∃ m₄, memoryAccess residue (m₁.issued dec' value) = .ok m₄ ∧ m₄.core.state = .memory ∧
      m₄.accessed.retired.Hosts (emulatorPlatform.after emulated u i) := by
  obtain ⟨op, rd, rs1, offset, rfl, hrd, hwriteRd, hjump, htarget, hwidth⟩ :=
    hcarries.reads hread
  have hstays : ¬ dec'.isJump = true := by
    rw [hjump]
    exact Bool.false_ne_true
  have hreads : u.world.Reads dec'.memOffset dec'.memAccessWidth.size := by
    rw [htarget, hwidth, loadWidth_size]
    exact hallows
  obtain ⟨bus, hbus, hstatus, hbacks⟩ := hreads.load h.backs residue
  have hvalue : Bytes.ofBytes 32 dec'.memAccessWidth.size (u.world.mmu.byteFrom dec'.memOffset) =
      CRiscV.loaded op fun i => u.world.mmu.memory (dec'.memOffset + BitVec.ofNat 32 i) := by
    rw [← ofBytes_load, hwidth, loadWidth_size]
    rw [hwidth, loadWidth_size] at hreads
    exact Bytes.ofBytes_congr fun i hi => hreads.1.byteFrom_eq hi
  refine ⟨_, memoryAccess_load hread hbus hstatus, rfl, h.retires hhosts rfl rfl hbacks rfl ?_ ?_
    fun _ => h.ahead⟩
  · exact if_neg hstays
  · rw [hvalue, htarget, ← hrd]
    exact if_pos hwriteRd

theorem Machine.Presents.stored (hhosts : m.Hosts u) (h : m.Presents m₁ u)
    (hcarries : dec'.Carries value (emulatorPlatform.hart u) i) (hread : dec'.readMem = false)
    (hwrite : dec'.writeMem = true) (hallows : emulatorPlatform.Allows u i)
    (hsupports : u.Supports i) (residue : BitVec 8) :
    ∃ m₄, memoryAccess residue (m₁.issued dec' value) = .ok m₄ ∧ m₄.core.state = .memory ∧
      m₄.accessed.retired.Hosts (emulatorPlatform.after emulated u i) := by
  obtain ⟨op, rs1, rs2, offset, rfl, rfl, hwriteRd, hjump, htarget, hwidth⟩ :=
    hcarries.writes hread hwrite
  have hstays : ¬ dec'.isJump = true := by
    rw [hjump]
    exact Bool.false_ne_true
  have hkept : ¬ dec'.writeRd = true := by
    rw [hwriteRd]
    exact Bool.false_ne_true
  have hwrites : u.world.Writes dec'.memOffset dec'.memAccessWidth.size := by
    rw [htarget, hwidth, storeWidth_size]
    exact hallows
  obtain ⟨bus, hbus, hstatus, rfl⟩ := hwrites.store h.backs (storeLatch op (u.reg rs2))
  have hworld : u.world.mmu.written (Bytes.byteAt (storeLatch op (u.reg rs2))) dec'.memOffset
      dec'.memAccessWidth.bytes =
        (emulatorPlatform.after emulated u (.store op rs1 rs2 offset)).world.mmu := by
    rw [hwidth, written_storeLatch, storeWidth_bytes, htarget]
    rfl
  have hcount : (BitVec.ofNat 64 op.size).toNat = op.size := by
    rw [← storeWidth_bytes, Width.bytes_toNat, storeWidth_size]
  refine ⟨_, memoryAccess_store hread hwrite hbus hstatus, rfl, h.retires hhosts rfl rfl ?_ rfl ?_ ?_
    fun _ => ?_⟩
  · exact ⟨.ok, _, congrArg (emulatorBus .ready u.world.csr false .ok) hworld⟩
  · exact if_neg hstays
  · exact if_neg hkept
  · apply h.ahead.disjoint hallows.1.held.1
    rw [hcount]
    exact hsupports.apart op rs1 rs2 offset rfl

/-- Five turns, whichever hosts they meet. -/
theorem Machine.Hosts.plain_turns (hrunning : t.running = true) (h : t.machine.Hosts u)
    (hshows : emulatorPlatform.Shows u.world u.pc i) (hplain : i.IsPlain)
    (hallows : emulatorPlatform.Allows u i) (hsupports : u.Supports i)
    (host₀ host₁ host₂ host₃ host₄ : Host) :
    ∃ m', Run (ThreadStep emulatorTurn) t [host₀, host₁, host₂, host₃, host₄] (Turn.first m') ∧
      m'.Hosts (emulatorPlatform.after emulated u i) := by
  obtain ⟨m₁, hfetch, hpresents⟩ := h.presents hshows.fetches (host₀.residue 0)
  have hstate : m₁.core.state = .decode := by
    rw [hpresents.core]
  have hword : Isa.decode m₁.core.instruction = some i := by
    rw [hpresents.core]
    exact hshows.decodes
  obtain ⟨dec, dec', value, hissues, hcarries⟩ :=
    computes_plain (hpresents.at h) hword hplain hsupports.implemented
  have haccess : ∃ m₄, memoryAccess (host₃.residue 0) (m₁.issued dec' value) = .ok m₄ ∧
      m₄.core.state = .memory ∧
      m₄.accessed.retired.Hosts (emulatorPlatform.after emulated u i) := by
    cases hread : dec'.readMem with
    | true => exact hpresents.loaded h hcarries hread hallows _
    | false =>
        cases hwrite : dec'.writeMem with
        | true => exact hpresents.stored h hcarries hread hwrite hallows hsupports _
        | false => exact hpresents.computed h hcarries hread hwrite _
  obtain ⟨m₄, hmemory, hnext, hhosts⟩ := haccess
  exact ⟨_, issued_turns hrunning hfetch hstate hissues hmemory hnext, hhosts⟩

end Plain

/-! ## The turns of an environment call -/

section Call

variable {t : Turn} {u : User World} {host host₀ host₁ host₂ host₃ host₄ host₅ : Host} {m₁ : Machine}
  {a0 : Word} {w : World}

/-- The machine in front of the handler. -/
theorem Machine.Presents.calling (hhosts : t.machine.Hosts u) (h : t.machine.Presents m₁ u)
    (dec : Decoded) : u.world.Calling u.reg (m₁.decodedTo dec).calling.entered := by
  have hregs : (m₁.decodedTo dec).calling.core.registers = u.reg := by
    show m₁.core.registers = u.reg
    rw [h.core]
    exact hhosts.registers
  exact ⟨hregs, hregs, h.backs, h.calls.trans hhosts.calls⟩

/-- Three turns to the trap, and the handler on it. -/
theorem Machine.Hosts.call_turns (hrunning : t.running = true) (h : t.machine.Hosts u)
    (hshows : emulatorPlatform.Shows u.world u.pc .ecall) (host₀ host₁ host₂ : Host) :
    ∃ m, Run (ThreadStep emulatorTurn) t [host₀, host₁, host₂] (Turn.first m) ∧
      m.core.state = .trap ∧ m.core.trapState = .enter ∧ m.core.pc = u.pc ∧
      m.core.csr mcause = wide TrapCause.envCallUmode.code ∧ u.world.Calling u.reg m.entered ∧
      ∀ host, trapHandler host m.entered = handleUmodeCall host m.entered := by
  obtain ⟨m₁, hfetch, hpresents⟩ := h.presents hshows.fetches (host₀.residue 0)
  have hstate : m₁.core.state = .decode := by
    rw [hpresents.core]
  have hne : m₁.core.state ≠ .trap := by
    rw [hstate]
    decide
  have hop : Isa.opcode m₁.core.instruction = 0b1110011 := by
    rw [hpresents.core]
    exact Isa.opcode_of_decode hshows.decodes
  obtain ⟨dec, hdecode, hformat, hopcode⟩ := decode_system hop
  have hdecoded : coreCycle (host₁.residue 0) m₁ = .ok (m₁.decodedTo dec) :=
    coreCycle_decode hstate hdecode
  have hexecute : execute (m₁.decodedTo dec).core =
      .ok (causeTrap (m₁.decodedTo dec).core .envCallUmode) := execute_system hformat hopcode
  have hexecuted : coreCycle (host₂.residue 0) (m₁.decodedTo dec) =
      .ok (m₁.decodedTo dec).calling := by
    show (execute (m₁.decodedTo dec).core >>= fun core => _) = _
    rw [hexecute]
    rfl
  have hquiet : QuietStep (Turn.first (m₁.decodedTo dec)) host₂
      (Turn.first (m₁.decodedTo dec).calling) := quietStep_of_cycle rfl hexecuted fun _ => nofun
  have hraised : (m₁.decodedTo dec).calling.core.csr mcause =
      wide TrapCause.envCallUmode.code := causeTrap_mcause (m₁.decodedTo dec).core .envCallUmode
  have hcause : (m₁.decodedTo dec).calling.entered.core.csr mcause =
      wide TrapCause.envCallUmode.code := by
    rw [← hraised]
    exact Csr.set_of_ne (m₁.decodedTo dec).calling.core.csr (show mcause ≠ mepc by decide)
      (wide (m₁.decodedTo dec).calling.core.pc)
  have hpc : (m₁.decodedTo dec).calling.core.pc = u.pc := by
    show m₁.core.pc = u.pc
    rw [hpresents.core]
    exact h.pc
  refine ⟨_, ((Run.nil.snoc (quietStep_of_state hrunning hfetch hne)).snoc
    (quietStep_of_state rfl hdecoded nofun)).snoc hquiet.1, rfl, rfl, hpc,
    hraised, hpresents.calling h dec, ?_⟩
  intro host
  have hepc : (m₁.decodedTo dec).calling.entered.core.csr mepc =
      wide (m₁.decodedTo dec).calling.core.pc :=
    Csr.set_self (m₁.decodedTo dec).calling.core.csr mepc _
  rw [trapHandler_eq hcause hepc, if_pos rfl]

theorem handled_turn {m m' : Machine} {running : Bool} (hstate : m.core.state = .trap)
    (htrap : m.core.trapState = .enter)
    (hhandler : ∀ host, trapHandler host m.entered = handleUmodeCall host m.entered)
    (hcall : handleUmodeCall host m.entered = .ok (running, m')) :
    ThreadStep emulatorTurn (Turn.first m) host
      { machine := m', handled := some m.entered, running := running } := by
  have henter := @emulatorTurn_enter (Turn.first m) hstate htrap host
  rw [show (Turn.first m).machine = m from rfl, hhandler, hcall] at henter
  exact ⟨rfl, henter⟩

theorem setReg_a0 (reg : Regs) (v : Word) :
    (fun r : Isa.Reg => if r = 10 then v else reg r) = Isa.setReg reg 10 v := by
  funext r
  by_cases hr : r = 10
  · rw [if_pos hr, hr]
    exact (Isa.setReg_self (by decide) v).symm
  · rw [if_neg hr]
    exact (if_neg fun h => hr h.1).symm

/-- Six turns, of which the handler sees one host. -/
theorem Machine.Hosts.resumed_turns (hrunning : t.running = true) (h : t.machine.Hosts u)
    (hshows : emulatorPlatform.Shows u.world u.pc .ecall)
    (hanswers : u.world.Answers host₃ u.reg (.resumed a0 w)) (host₀ host₁ host₂ host₄ host₅ : Host) :
    ∃ m', Run (ThreadStep emulatorTurn) t [host₀, host₁, host₂, host₃, host₄, host₅]
        (Turn.first m') ∧
      m'.Hosts { pc := u.pc + 4, reg := Isa.setReg u.reg 10 a0, world := w } := by
  obtain ⟨m, hrun, hstate, htrap, hpc, -, hcalling, hhandler⟩ :=
    h.call_turns hrunning hshows host₀ host₁ host₂
  obtain ⟨m', hcall, hsaves, ha0, hbacks, hcalls⟩ := hanswers.resumes hcalling
  have hhandled := handled_turn hstate htrap hhandler hcall
  have hstate' : m'.core.state = .trap := by
    rw [hsaves]
    exact hstate
  have htrap' : m'.core.trapState = .handle := by
    rw [hsaves]
    rfl
  have hepc : m'.core.csr mepc = wide u.pc := by
    rw [hsaves, ← hpc]
    exact Csr.set_self m.core.csr mepc _
  have hexiting : QuietStep { machine := m', handled := some m.entered, running := true } host₄
      (Turn.first m'.exiting) :=
    quietStep_of_cycle rfl (coreCycle_handle hstate' htrap') fun _ => nofun
  have hresumed : ThreadStep emulatorTurn (Turn.first m'.exiting) host₅
      (Turn.first m'.exiting.resumed) :=
    quietStep_of_state rfl (coreCycle_exit hstate' rfl) nofun
  refine ⟨_, ((hrun.snoc hhandled).snoc hexiting.1).snoc hresumed, rfl, rfl, ?_, ?_, ?_, hbacks,
    hcalls, Core.holds_of_empty rfl⟩
  · show (csrReadClear32 m'.core.csr mepc 0).1 + 4 = u.pc + 4
    rw [csrReadClear32_wide hepc]
  · show m'.core.trapRegs = Isa.setReg u.reg 10 a0
    rw [hsaves, ← setReg_a0, ha0, hcalling.saved]
  · exact (Isa.setReg_at_zero u.reg 10 a0).trans h.zero

/-- Four turns, and the loop ends. -/
theorem Machine.Hosts.halted_turns (hrunning : t.running = true) (h : t.machine.Hosts u)
    (hhalts : emulatorPlatform.Halts u host₃ w) (host₀ host₁ host₂ : Host) :
    ∃ t', Run (ThreadStep emulatorTurn) t [host₀, host₁, host₂, host₃] t' ∧ t'.running = false ∧
      w.mmu.SameMemory t'.machine.bus.mmu ∧ t'.machine.calls = w.calls := by
  obtain ⟨m, hrun, hstate, htrap, hpc, -, hcalling, hhandler⟩ :=
    h.call_turns hrunning hhalts.shows host₀ host₁ host₂
  obtain ⟨m', hcall, hmemory, hcalls⟩ := World.Answers.halts hhalts.calls hcalling
  have hhandled := handled_turn hstate htrap hhandler hcall
  exact ⟨_, hrun.snoc hhandled, rfl, hmemory, hcalls⟩

end Call

/-! ## Runs -/

/-- The turns that one step of the user takes.  The fourth host answers a call. -/
inductive Row : Option Host → List Host → Prop
  | plain (host₀ host₁ host₂ host₃ host₄ : Host) : Row none [host₀, host₁, host₂, host₃, host₄]
  | call (host₀ host₁ host₂ host host₄ host₅ : Host) :
      Row (some host) [host₀, host₁, host₂, host, host₄, host₅]

/-- The loop goes on, on a machine that hosts the user. -/
structure Isa.User.HostedBy (u : User World) (t : Turn) : Prop where
  running : t.running = true
  machine : t.machine.Hosts u

/-- A step of the user that the emulator supports, with this effect of the instructions. -/
def SupportedStep (eff : Isa.Effect) : User World → Option Host → User World → Prop :=
  Meeting (emulatorPlatform.Step eff) fun u _ =>
    ∀ i, emulatorPlatform.Shows u.world u.pc i → u.Supports i

section Runs

variable {t : Turn} {u v : User World} {l : Option Host} {ls : List (Option Host)}
  {rows : List (List Host)} {row : List Host}

theorem Isa.User.HostedBy.follows (h : u.HostedBy t) (hstep : SupportedStep emulated u l v)
    (hrow : Row l row) : ∃ t', Run (ThreadStep emulatorTurn) t row t' ∧ v.HostedBy t' := by
  obtain ⟨hstep, hsupports⟩ := hstep
  cases hstep with
  | plain hshows hplain hallows =>
      cases hrow with
      | plain host₀ host₁ host₂ host₃ host₄ =>
          obtain ⟨m', hrun, hhosts⟩ := h.machine.plain_turns h.running hshows hplain hallows
            (hsupports _ hshows) host₀ host₁ host₂ host₃ host₄
          exact ⟨_, hrun, rfl, hhosts⟩
  | call hshows hcalls =>
      cases hrow with
      | call host₀ host₁ host₂ host host₄ host₅ =>
          obtain ⟨m', hrun, hhosts⟩ := h.machine.resumed_turns h.running hshows hcalls
            host₀ host₁ host₂ host₄ host₅
          exact ⟨_, hrun, rfl, hhosts⟩

theorem ThreadStep.deterministic (t : Turn) (host : Host) (t' t'' : Turn)
    (h : ThreadStep emulatorTurn t host t') (h' : ThreadStep emulatorTurn t host t'') :
    t' = t'' := by
  have hturn := h.2
  rw [h'.2] at hturn
  exact (Except.ok.inj hturn).symm

theorem Isa.User.HostedBy.follows_run (hhosts : u.HostedBy t) (hrun : Run (SupportedStep emulated) u ls v)
    (hrows : List.Forall₂ Row ls rows) :
    ∃ t', Run (ThreadStep emulatorTurn) t rows.flatten t' ∧ v.HostedBy t' := by
  refine Run.rows ?_ hrun hrows hhosts
  intro a b m a' row hR hstep hrow
  exact hR.follows hstep hrow

/-- Every program on the emulator: the thread loop goes through the user's run, row by
row, and over these turns it does nothing else. -/
theorem program_followed (hhosts : u.HostedBy t) (hrun : Run (SupportedStep emulated) u ls v)
    (hrows : List.Forall₂ Row ls rows) :
    (∃ t', Run (ThreadStep emulatorTurn) t rows.flatten t') ∧
      ∀ t', Run (ThreadStep emulatorTurn) t rows.flatten t' → v.HostedBy t' := by
  obtain ⟨t', hturns, hhosts'⟩ := hhosts.follows_run hrun hrows
  refine ⟨⟨t', hturns⟩, ?_⟩
  intro t'' hturns'
  rw [hturns'.deterministic ThreadStep.deterministic hturns]
  exact hhosts'

/-- A program that ends by an environment call ends the loop. -/
theorem program_halts {host host₀ host₁ host₂ : Host} {w : World} (hhosts : u.HostedBy t)
    (hrun : Run (SupportedStep emulated) u ls v) (hhalts : emulatorPlatform.Halts v host w)
    (hrows : List.Forall₂ Row ls rows) :
    (∃ t', Run (ThreadStep emulatorTurn) t (rows.flatten ++ [host₀, host₁, host₂, host]) t') ∧
      ∀ t', Run (ThreadStep emulatorTurn) t (rows.flatten ++ [host₀, host₁, host₂, host]) t' →
        w.mmu.SameMemory t'.machine.bus.mmu ∧ t'.machine.calls = w.calls ∧
          ∀ host' t'', ¬ ThreadStep emulatorTurn t' host' t'' := by
  obtain ⟨t', hturns, hhosts'⟩ := hhosts.follows_run hrun hrows
  obtain ⟨t'', hlast, hended, hmemory, hcalls⟩ :=
    hhosts'.machine.halted_turns hhosts'.running hhalts host₀ host₁ host₂
  refine ⟨⟨t'', hturns.append hlast⟩, ?_⟩
  intro t₁ hturns₁
  cases hturns₁.deterministic ThreadStep.deterministic (hturns.append hlast)
  refine ⟨hmemory, hcalls, ?_⟩
  rintro host' t₂ ⟨hgoes, -⟩
  rw [hended] at hgoes
  cases hgoes

/-- Where a program gets, whatever the host does, the emulator gets with any hosts. -/
theorem program_leads {Q : User World → Prop} (hhosts : u.HostedBy t)
    (hleads : Leads (SupportedStep emulated) Q u) (stream : Nat → Host) :
    ∃ n t' v, Run (ThreadStep emulatorTurn) t (inputs stream n) t' ∧ v.HostedBy t' ∧ Q v := by
  refine hleads.follow ?_ hhosts stream
  intro a b hR stream
  refine ⟨stream 3, fun l a' hl hstep => ?_⟩
  cases hl with
  | inl hnone =>
      subst hnone
      exact ⟨5, hR.follows hstep (.plain _ _ _ _ _)⟩
  | inr hsome =>
      subst hsome
      exact ⟨6, hR.follows hstep (.call _ _ _ _ _ _)⟩

/-! ## Against the instruction set -/

/-- The turns of the steps `ls` are there, whatever the hosts between the calls, and lead
to a machine that hosts `v`. -/
def Turn.Makes (t : Turn) (ls : List (Option Host)) (v : User World) : Prop :=
  ∀ rows, List.Forall₂ Row ls rows →
    ∃ t', Run (ThreadStep emulatorTurn) t rows.flatten t' ∧ v.HostedBy t'

/-- The emulator and the instruction set agree on the instruction at hand. -/
def Isa.User.Exact (u : User World) : Prop :=
  ∀ i, emulatorPlatform.Shows u.world u.pc i → (emulatorPlatform.hart u).Exact i

theorem row_exists (l : Option Host) : ∃ row, Row l row := by
  cases l with
  | none => exact ⟨_, .plain quietHost quietHost quietHost quietHost quietHost⟩
  | some host => exact ⟨_, .call quietHost quietHost quietHost host quietHost quietHost⟩

theorem rows_exist (ls : List (Option Host)) : ∃ rows, List.Forall₂ Row ls rows := by
  induction ls with
  | nil => exact ⟨[], .nil⟩
  | cons l ls ih =>
      obtain ⟨rows, hrows⟩ := ih
      obtain ⟨row, hrow⟩ := row_exists l
      exact ⟨row :: rows, .cons hrow hrows⟩

theorem emulated_mem (h : Isa.Hart) (i : Isa.Instr) : (emulated h i).mem = (Isa.exec h i).mem := by
  cases i <;> rfl

theorem Isa.User.Exact.step (hexact : u.Exact) (hstep : SupportedStep Isa.exec u l v) :
    SupportedStep emulated u l v := by
  refine ⟨hstep.1.congr ?_, hstep.2⟩
  intro i hshows
  rw [(emulated_eq_exec_iff _ i).mpr (hexact i hshows)]
  exact ⟨rfl, rfl⟩

/-- A machine that hosts the user before a step, and behind its turns the one that the
instruction set asks for, has found the two to agree. -/
theorem Isa.User.HostedBy.exact {t' : Turn} (h : u.HostedBy t)
    (hstep : SupportedStep Isa.exec u l v) (hrow : Row l row)
    (hturns : Run (ThreadStep emulatorTurn) t row t') (h' : v.HostedBy t') : u.Exact := by
  obtain ⟨hstep, hsupports⟩ := hstep
  cases hstep with
  | call hshows =>
      intro j hj
      cases hshows.unique hj
      trivial
  | @plain i hshows hplain hallows =>
      intro j hj
      cases hshows.unique hj
      obtain ⟨t'', hturns', h''⟩ := h.follows ⟨.plain hshows hplain hallows, hsupports⟩ hrow
      cases hturns.deterministic ThreadStep.deterministic hturns'
      rw [← emulated_eq_exec_iff]
      exact Isa.Hart.eq_of (h''.machine.pc.symm.trans h'.machine.pc)
        (h''.machine.registers.symm.trans h'.machine.registers) (emulated_mem _ i)

/-- The turns of one step more. -/
theorem Turn.Makes.snoc_iff (hmakes : t.Makes ls u) (hstep : SupportedStep Isa.exec u l v) :
    t.Makes (ls ++ [l]) v ↔ u.Exact := by
  constructor
  · intro hmore
    obtain ⟨rows, hrows⟩ := rows_exist ls
    obtain ⟨row, hrow⟩ := row_exists l
    obtain ⟨t', hturns, hhosts⟩ := hmakes rows hrows
    obtain ⟨t'', hturns', hhosts'⟩ :=
      hmore (rows ++ [row]) (List.rel_append hrows (.cons hrow .nil))
    rw [List.flatten_append, List.flatten_singleton] at hturns'
    obtain ⟨t₁, hfirst, hlast⟩ := hturns'.append_inv
    cases hfirst.deterministic ThreadStep.deterministic hturns
    exact hhosts.exact hstep hrow hlast hhosts'
  · intro hexact rows hrows
    obtain ⟨before, row, rfl, hbefore, hrow⟩ := exists_of_forall₂_snoc hrows
    obtain ⟨t', hturns, hhosts⟩ := hmakes before hbefore
    obtain ⟨t'', hturns', hhosts'⟩ := hhosts.follows (hexact.step hstep) hrow
    refine ⟨t'', ?_, hhosts'⟩
    rw [List.flatten_append, List.flatten_singleton]
    exact hturns.append hturns'

/-- The emulator carries out a program as the instruction set says, up to every point of
its run, exactly when the two agree on each instruction that the run comes to. -/
theorem program_exact_iff (hhosts : u.HostedBy t) (hrun : Run (SupportedStep Isa.exec) u ls v) :
    Throughout (SupportedStep Isa.exec) u t.Makes ls ↔
      Run (Meeting (SupportedStep Isa.exec) fun w _ => w.Exact) u ls v := by
  apply hrun.throughout_iff
  · intro a l b b' h h'
    exact h.1.deterministic h'.1
  · intro rows hrows
    cases hrows
    exact ⟨t, .nil, hhosts⟩
  · intro ls w l w' _ hmakes hstep
    exact hmakes.snoc_iff hstep

end Runs

/-! ## On programs -/

def programWorld (program : List Word) : World :=
  { mmu := programMmu program, csr := .ready, calls := [] }

/-- The user at the start of a program. -/
def programUser (program : List Word) (regs : Regs) : User World :=
  { pc := ramStart, reg := regs, world := programWorld program }

section Programs

variable {program : List Word} {regs : Regs} {a : Vaddr} {n k : Nat} {i : Isa.Instr}

theorem programUser_hosted (hzero : regs 0 = 0) :
    (programUser program regs).HostedBy (Turn.first (programMachine program regs)) :=
  ⟨rfl, ⟨rfl, rfl, rfl, rfl, hzero, ⟨.ok, .ok, rfl⟩, rfl, Core.holds_of_empty rfl⟩⟩

theorem programWorld_reads (hlo : 0x10000 ≤ a.toNat) (hhi : a.toNat + n ≤ 0x7ffff) (hn : 0 < n) :
    (programWorld program).Reads a n := by
  refine ⟨@programMachine_inRam program (fun _ => 0) a n hlo hhi hn, ?_⟩
  intro i _
  show (mpermRead ||| mpermWrite).Readable
  decide

theorem ramStart_add (hk : 4 * k + 4 ≤ 0x6ffff) :
    (ramStart + BitVec.ofNat 32 (4 * k)).toNat = 0x10000 + 4 * k := by
  have hstart : ramStart.toNat = 0x10000 := rfl
  rw [BitVec.toNat_add, BitVec.toNat_ofNat, hstart]
  omega

theorem programWorld_word (hk : 4 * k + 4 ≤ 0x6ffff) :
    emulatorPlatform.word (programWorld program) (ramStart + BitVec.ofNat 32 (4 * k)) =
      program.getD k 0 := by
  have haddr := ramStart_add hk
  have hreads : (programWorld program).Reads (ramStart + BitVec.ofNat 32 (4 * k)) 4 :=
    programWorld_reads (by omega) (by omega) (by decide)
  have hoffset : ((programMmu program).offset (ramStart + BitVec.ofNat 32 (4 * k))).toNat =
      4 * k := by
    have hbase : (programMmu program).base.toNat = 0x10000 := rfl
    rw [Mmu.offset_toNat (by omega), haddr, hbase]
    omega
  have hbyte : ∀ i < 4, (programMmu program).byteFrom (ramStart + BitVec.ofNat 32 (4 * k)) i =
      Bytes.byteAt (program.getD k 0) i := by
    intro i hi
    show programBytes program (((programMmu program).offset _).toNat + i) = _
    unfold programBytes
    rw [hoffset, show (4 * k + i) / 4 = k by omega, show (4 * k + i) % 4 = i by omega]
  rw [← hreads.word_eq (Nat.le_refl 4)]
  unfold Mmu.ramWord
  rw [show (programWorld program).mmu = programMmu program from rfl, Bytes.ofBytes_congr hbyte,
    Bytes.ofBytes_byteAt]
  simp

theorem programWorld_shows (hk : 4 * k + 32 ≤ 0x6ffff)
    (hdecode : Isa.decode (program.getD k 0) = some i) :
    emulatorPlatform.Shows (programWorld program) (ramStart + BitVec.ofNat 32 (4 * k)) i := by
  have haddr := @ramStart_add k (by omega)
  refine ⟨programWorld_reads (by omega) (by omega) (by decide), ?_⟩
  rw [programWorld_word (by omega)]
  exact hdecode

end Programs

def addCallRegs (number : Word) : Regs := fun r =>
  if r = 5 then 3 else if r = 6 then 4 else if r = 17 then number else 0

/-- `add x7, x5, x6` and `ecall`, with the number of a system call in a7. -/
def addCall (number : Word) : User World :=
  programUser [0x006283b3, 0x00000073] (addCallRegs number)

def addCallTurn (number : Word) : Turn :=
  Turn.first (programMachine [0x006283b3, 0x00000073] (addCallRegs number))

theorem addCall_hosted (number : Word) : (addCall number).HostedBy (addCallTurn number) :=
  programUser_hosted rfl

theorem addCall_shows (number : Word) :
    emulatorPlatform.Shows (addCall number).world (addCall number).pc (.reg .add 7 5 6) ∧
      emulatorPlatform.Shows (addCall number).world ((addCall number).pc + 4) .ecall :=
  ⟨@programWorld_shows [0x006283b3, 0x00000073] 0 _ (by decide) (by decide),
    @programWorld_shows [0x006283b3, 0x00000073] 1 _ (by decide) (by decide)⟩

/-- Behind the addition. -/
def addedCall (number : Word) : User World :=
  emulatorPlatform.after emulated (addCall number) (.reg .add 7 5 6)

theorem addCall_adds (number : Word) :
    SupportedStep emulated (addCall number) none (addedCall number) := by
  refine ⟨.plain (addCall_shows number).1 trivial trivial, ?_⟩
  intro i hi
  cases (addCall_shows number).1.unique hi
  exact ⟨nofun, nofun⟩

/-- `close` of the standard input. -/
theorem addedCall_closes :
    SupportedStep emulated (addedCall 57) (some quietHost)
      { pc := (addedCall 57).pc + 4
        reg := Isa.setReg (addedCall 57).reg 10 0
        world := (addedCall 57).world } := by
  have hshows : emulatorPlatform.Shows (addedCall 57).world (addedCall 57).pc .ecall :=
    (addCall_shows 57).2
  refine ⟨.call hshows ⟨_, rfl, rfl, rfl, .ok, rfl⟩, ?_⟩
  intro i hi
  cases hshows.unique hi
  exact ⟨nofun, nofun⟩

theorem addedCall_exits : emulatorPlatform.Halts (addedCall 93) quietHost (addedCall 93).world :=
  ⟨(addCall_shows 93).2, _, rfl, rfl⟩

theorem addCall_followed :
    (∃ t', Run (ThreadStep emulatorTurn) (addCallTurn 57) (List.replicate 11 quietHost) t') ∧
      ∀ t', Run (ThreadStep emulatorTurn) (addCallTurn 57) (List.replicate 11 quietHost) t' →
        Isa.User.HostedBy { pc := (addedCall 57).pc + 4
                            reg := Isa.setReg (addedCall 57).reg 10 0
                            world := (addedCall 57).world } t' := by
  have hrow : Row none (List.replicate 5 quietHost) := .plain _ _ _ _ _
  have hrow' : Row (some quietHost) (List.replicate 6 quietHost) := .call _ _ _ _ _ _
  exact program_followed (addCall_hosted 57)
    ((Run.nil.snoc (addCall_adds 57)).snoc addedCall_closes) (.cons hrow (.cons hrow' .nil))

theorem addCall_halts :
    (∃ t', Run (ThreadStep emulatorTurn) (addCallTurn 93) (List.replicate 9 quietHost) t') ∧
      ∀ t', Run (ThreadStep emulatorTurn) (addCallTurn 93) (List.replicate 9 quietHost) t' →
        (addedCall 93).world.mmu.SameMemory t'.machine.bus.mmu ∧
          t'.machine.calls = (addedCall 93).world.calls ∧
            ∀ host t'', ¬ ThreadStep emulatorTurn t' host t'' := by
  have hrow : Row none (List.replicate 5 quietHost) := .plain _ _ _ _ _
  exact @program_halts _ _ _ _ _ quietHost quietHost quietHost quietHost _ (addCall_hosted 93)
    (Run.nil.snoc (addCall_adds 93)) addedCall_exits (.cons hrow .nil)

/-- An addition and an environment call, both as the instruction set has them. -/
theorem addCall_exact :
    Throughout (SupportedStep Isa.exec) (addCall 57) (addCallTurn 57).Makes
      [none, some quietHost] := by
  have hadds : SupportedStep Isa.exec (addCall 57) none (addedCall 57) :=
    ⟨.plain (addCall_shows 57).1 trivial trivial, (addCall_adds 57).2⟩
  have hshows : emulatorPlatform.Shows (addedCall 57).world (addedCall 57).pc .ecall :=
    (addCall_shows 57).2
  have hcloses : SupportedStep Isa.exec (addedCall 57) (some quietHost) _ :=
    ⟨.call hshows ⟨_, rfl, rfl, rfl, .ok, rfl⟩, addedCall_closes.2⟩
  refine (program_exact_iff (addCall_hosted 57) ((Run.nil.snoc hadds).snoc hcloses)).mpr
    ((Run.nil.snoc ⟨hadds, fun i hi => ?added⟩).snoc ⟨hcloses, fun i hi => ?closed⟩)
  case added =>
    cases (addCall_shows 57).1.unique hi
    exact Or.inr nofun
  case closed =>
    cases hshows.unique hi
    trivial

end CRiscV
