/-
The hart that a machine implements, and what it means for the machine to have
carried out one of the hart's instructions.
-/
import CRiscV.Core.Pipeline
import CRiscV.Isa.Semantics

namespace CRiscV

/-- RAM by address. -/
def Mmu.memory (mmu : Mmu) : Isa.Word → BitVec 8 := fun a => mmu.data (mmu.offset a).toNat

def Machine.hart (m : Machine) : Isa.Hart :=
  { pc := m.core.pc, reg := m.core.registers, mem := m.bus.mmu.memory }

/-- `m'` is back at the fetch stage as the hart `h`, with no trap pending and with
the control and status registers of `m`. -/
structure Machine.Retires (m m' : Machine) (h : Isa.Hart) : Prop where
  state : m'.core.state = .fetch
  trapState : m'.core.trapState = .none
  hart : m'.hart = h
  csr : m'.core.csr = m.core.csr

/-- `m` is at the fetch stage with no trap pending and with register zero as it
should be, and `m1` is the machine after the fetch, which delivers a word. -/
structure Machine.Starts (m : Machine) (residue : BitVec 8) (m1 : Machine) : Prop where
  state : m.core.state = .fetch
  trapState : m.core.trapState = .none
  zero : m.core.registers 0 = 0
  fetches : coreCycle residue m = .ok m1

theorem Mmu.SameMemory.memory_eq {mmu mmu' : Mmu} (h : mmu.SameMemory mmu') :
    mmu'.memory = mmu.memory := by
  obtain ⟨state, rfl⟩ := h
  rfl

theorem Machine.Starts.fetched {residue : BitVec 8} {m m1 : Machine}
    (h : m.Starts residue m1) : m.Fetched m1 := coreCycle_fetched h.state h.fetches

theorem Machine.Starts.registers_eq {residue : BitVec 8} {m m1 : Machine}
    (h : m.Starts residue m1) : m1.core.registers = m.core.registers := by
  rw [h.fetched.core]

theorem Machine.Starts.zero_kept {residue : BitVec 8} {m m1 : Machine}
    (h : m.Starts residue m1) : m1.core.registers 0 = 0 := by
  rw [h.registers_eq]
  exact h.zero

/-- On a register file whose first register is zero, the macro writes as the hart
does. -/
theorem regW_eq_setReg {regs : Regs} (hzero : regs 0 = 0) (x : BitVec 5) (v : Word) :
    regW regs x v = Isa.setReg regs x v := by
  funext r
  unfold regW Isa.setReg
  by_cases hr : r = x
  · rw [if_pos hr]
    by_cases hx : x = 0
    · rw [if_pos hx, if_neg (fun h => h.2 hx), hr, hx, hzero]
    · rw [if_neg hx, if_pos ⟨hr, hx⟩]
  · rw [if_neg hr, if_neg (fun h => hr h.1)]

theorem Machine.Starts.retires {residue : BitVec 8} {m m1 m' : Machine}
    {rs : List (BitVec 8)} {h : Isa.Hart} (hstart : m.Starts residue m1)
    (hcycles : coreCycles rs m1 = .ok m') (hstate : m'.core.state = .fetch)
    (htrap : m'.core.trapState = m1.core.trapState) (hcsr : m'.core.csr = m1.core.csr)
    (hhart : m'.hart = h) : coreCycles (residue :: rs) m = .ok m' ∧ m.Retires m' h := by
  refine ⟨?_, hstate, ?_, hhart, ?_⟩
  · rw [coreCycles_cons, hstart.fetches, Transition.ok_bind, hcycles]
  · rw [htrap, hstart.fetched.core]
    exact hstart.trapState
  · rw [hcsr, hstart.fetched.core]

/-- Beside what the hart shows, `m'` differs from `m` in the latches between the stages
only; the bus, the words of the buffer and, without a jump, their count are as the fetch
left them in `m1`. -/
structure Machine.Keeps (m m1 m' : Machine) (jumped : Bool) : Prop where
  core : m'.core = { m.core with
    cycle := m'.core.cycle
    instruction := m'.core.instruction
    decoded := m'.core.decoded
    aluOut := m'.core.aluOut
    prefetch := m'.core.prefetch
    prefetchCnt := m'.core.prefetchCnt
    pc := m'.core.pc
    registers := m'.core.registers }
  prefetch : m'.core.prefetch = m1.core.prefetch
  prefetchCnt : m'.core.prefetchCnt = if jumped then 0 else m1.core.prefetchCnt
  bus : m'.bus = m1.bus
  memory : m.bus.mmu.SameMemory m'.bus.mmu
  calls : m'.calls = m.calls

/-- The hart after an instruction that was decoded and executed to `dec` and `value`. -/
def Isa.Hart.after (h : Isa.Hart) (dec : Decoded) (value : Word) : Isa.Hart :=
  { h with
    pc := if dec.isJump then dec.jumpTarget else h.pc + 4
    reg := if dec.writeRd then Isa.setReg h.reg dec.rd value else h.reg }

/-- An instruction that neither goes to memory nor traps. -/
theorem Machine.Starts.plain {residue : BitVec 8} {m m1 : Machine} {dec dec' : Decoded}
    {value : Word} {rs : List (BitVec 8)} (hstart : m.Starts residue m1) (hlen : rs.length = 4)
    (hdecode : decode m1.core = { m1.core with decoded := dec })
    (hexecute : ∀ core : Core, core.decoded = dec → core.pc = m.core.pc →
      execute core = .ok { core with decoded := dec', aluOut := value })
    (hread : dec'.readMem = false) (hwrite : dec'.writeMem = false) :
    ∃ m', (coreCycles (residue :: rs) m = .ok m' ∧ m.Retires m' (m.hart.after dec' value)) ∧
      m.Keeps m1 m' dec'.isJump := by
  have hfetched := hstart.fetched
  have hpc : m1.core.pc = m.core.pc := by rw [hfetched.core]
  obtain ⟨m', hcycles, hcore, hbus, hcalls⟩ :=
    coreCycles_plain hlen (by rw [hfetched.core]) hdecode
      (fun core hdec hcorePc => hexecute core hdec (hcorePc.trans hpc)) hread hwrite
  have hmemory : m.bus.mmu.SameMemory m'.bus.mmu := by
    rw [hbus]
    exact hfetched.memory
  have hhart : m'.hart = m.hart.after dec' value := by
    unfold Machine.hart Isa.Hart.after
    rw [hmemory.memory_eq, hcore, hfetched.core]
    simp only [regW_eq_setReg hstart.zero]
  refine ⟨m', hstart.retires hcycles (by rw [hcore]) (by rw [hcore]) (by rw [hcore]) hhart,
    ?_, by rw [hcore], by rw [hcore], hbus, hmemory, hcalls.trans hfetched.calls⟩
  rw [hcore, hfetched.core]
  simp only [hstart.state]

/-- The machine after five cycles is a function of the machine before them, so one
hart that it implements is the only one. -/
theorem Machine.retires_iff {residue : BitVec 8} {m : Machine} {h h' : Isa.Hart}
    {P : Machine → Prop}
    (hrun : ∀ rs : List (BitVec 8), rs.length = 4 → ∃ m',
      (coreCycles (residue :: rs) m = .ok m' ∧ m.Retires m' h) ∧ P m') :
    (∀ rs : List (BitVec 8), rs.length = 4 → ∃ m', coreCycles (residue :: rs) m = .ok m' ∧
      m.Retires m' h' ∧ P m') ↔ h = h' := by
  constructor
  · intro hall
    obtain ⟨m', hcycles, hretires, -⟩ := hall [0, 0, 0, 0] rfl
    obtain ⟨m'', ⟨hcycles', hretires'⟩, -⟩ := hrun [0, 0, 0, 0] rfl
    rw [hcycles] at hcycles'
    cases hcycles'
    rw [← hretires'.hart, hretires.hart]
  · intro heq rs hlen
    obtain ⟨m', ⟨hcycles, hretires⟩, hP⟩ := hrun rs hlen
    exact ⟨m', hcycles, heq ▸ hretires, hP⟩

/-! ## A core in front of a program -/

def programBytes (program : List Word) : Nat → BitVec 8 := fun i =>
  Bytes.byteAt (program.getD (i / 4) 0) (i % 4)

/-- RAM with a program at its start, all of it readable and writable. -/
def programMmu (program : List Word) : Mmu :=
  { size := wide ramSize
    base := ramStart
    currVaddr := wide ramStart
    data := programBytes program
    perm := fun _ => mpermRead ||| mpermWrite
    dirty := fun _ => false
    state := .ok
    dataBlock := wide ramSize
    permBlock := sizeofPerm * wide ramSize
    dirtyBlock := wide ramSize / dirtyPageSize + 1 }

/-- The core has been initialised and its registers set. -/
def programMachine (program : List Word) (regs : Regs) : Machine :=
  { core := { coreInit cpuInitCore 0 ramStart with registers := regs }
    bus := mainBus (programMmu program)
    calls := [] }

/-- The core has one word left in its buffer. -/
def bufferedMachine (w : Word) (regs : Regs) : Machine :=
  { core := { coreInit cpuInitCore 0 ramStart with
      prefetch := fun _ => w
      prefetchCnt := 1
      registers := regs }
    bus := mainBus (programMmu [])
    calls := [] }

theorem programMachine_starts {program : List Word} {regs : Regs} {residue : BitVec 8}
    {m1 : Machine} (hzero : regs 0 = 0)
    (hfetch : coreCycle residue (programMachine program regs) = .ok m1) :
    (programMachine program regs).Starts residue m1 := ⟨rfl, rfl, hzero, hfetch⟩

theorem mainBus_routes (mmu : Mmu) {offs : Size} (h : (ramDevice .ready).covers offs = true) :
    (mainBus mmu).Routes offs 0 (ramDevice .ready) := by
  unfold Bus.Routes
  rw [busFindDevice_fst]
  simp [mainBus, List.findIdx?_cons, h]

theorem programMachine_inRam {program : List Word} {regs : Regs} {a : Vaddr} {n : Nat}
    (hlo : 0x10000 ≤ a.toNat) (hhi : a.toNat + n ≤ 0x7ffff) (hn : 0 < n) :
    (programMachine program regs).bus.InRam a n := by
  have hsize : (wide ramSize).toNat = 0x6ffff := by decide
  have hcovers : (ramDevice .ready).covers (wide a) = true := by
    unfold Device.covers
    rw [Bool.and_eq_true, decide_eq_true_iff, decide_eq_true_iff, gt_iff_lt, BitVec.le_def,
      BitVec.lt_def, wide_toNat, wide_toNat, wide_toNat]
    show 0x10000 ≤ a.toNat ∧ a.toNat < 0x7ffff
    omega
  refine ⟨⟨0, ramDevice .ready, mainBus_routes _ hcovers, rfl, rfl⟩, ⟨?_, ?_⟩, ?_, ?_⟩
  · exact hlo
  · show a.toNat + n ≤ 0x10000 + (wide ramSize).toNat
    omega
  · show (wide ramSize).toNat < 2 ^ 63
    omega
  · omega

/-- One wrong part of the hart is enough. -/
theorem not_retires_of {α : Type} {m : Machine} {residues : List (BitVec 8)} {h : Isa.Hart}
    {v : α} (part : Isa.Hart → α)
    (hrun : (coreCycles residues m).map (fun m' => part m'.hart) = .ok v) (hne : part h ≠ v) :
    ¬ ∃ m', coreCycles residues m = .ok m' ∧ m.Retires m' h := by
  intro hexists
  obtain ⟨m', hcycles, hretires⟩ := hexists
  obtain ⟨m'', hcycles', hv⟩ := Transition.exists_of_map_ok hrun
  rw [hcycles] at hcycles'
  cases hcycles'
  apply hne
  rw [← hretires.hart, ← hv]

end CRiscV
