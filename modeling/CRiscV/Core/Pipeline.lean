/-
What each stage of the cycle leaves behind, and the four stages after a fetch put
together for the instructions that write a register, load or store.
-/
import CRiscV.Bus.Access
import CRiscV.Core.Fields
import CRiscV.Core.Cycle

namespace CRiscV

theorem coreCycles_cons (residue : BitVec 8) (rest : List (BitVec 8)) (m : Machine) :
    coreCycles (residue :: rest) m = coreCycle residue m >>= coreCycles rest := rfl

@[simp] theorem Machine.withCore_withCore (m : Machine) (core core' : Core) :
    (m.withCore core).withCore core' = m.withCore core' := rfl

/-! ## Fetch -/

/-- A stage that does not trap hands over to the next. -/
theorem Core.advance_of_ne {core : Core} (h : core.state ≠ .trap) (next : CoreState) :
    core.advance next = { core with state := next, cycle := core.cycle + 1 } := by
  unfold Core.advance
  rw [if_pos h]

/-- What a fetch may change, and that its bus has been released if it was used. -/
theorem fetch_frame {m m' : Machine} (h : fetch m = .ok m') :
    m'.core = { m.core with
      instruction := m'.core.instruction
      prefetch := m'.core.prefetch
      prefetchCnt := m'.core.prefetchCnt } ∧
    (m'.bus = m.bus ∨ m.bus.AfterRead m'.bus) ∧ m'.calls = m.calls := by
  unfold fetch at h
  by_cases hcnt : m.core.prefetchCnt = 0
  · rw [if_pos hcnt] at h
    obtain ⟨⟨n, buf, bus⟩, hread, h⟩ := Transition.exists_of_bind_ok h
    have hframe := busReadMultiple_frame hread
    simp only at h
    obtain ⟨-, h⟩ := Transition.of_ite_error h
    cases h
    exact ⟨rfl, Or.inr hframe, rfl⟩
  · rw [if_neg hcnt] at h
    by_cases hbound : 7 - m.core.prefetchCnt.toNat < 7 ∧ m.core.prefetchCnt.toNat ≤ 7
    · rw [dif_pos hbound] at h
      cases h
      exact ⟨rfl, Or.inl rfl, rfl⟩
    · rw [dif_neg hbound] at h
      cases h

/-- What a fetch cycle that delivers a word leaves behind. -/
structure Machine.Fetched (m m' : Machine) : Prop where
  core : m'.core = { m.core with
    state := .decode
    cycle := m.core.cycle + 1
    instruction := m'.core.instruction
    prefetch := m'.core.prefetch
    prefetchCnt := m'.core.prefetchCnt }
  bus : m'.bus = m.bus ∨ m.bus.AfterRead m'.bus
  calls : m'.calls = m.calls

theorem coreCycle_fetched {residue : BitVec 8} {m m' : Machine} (hstate : m.core.state = .fetch)
    (h : coreCycle residue m = .ok m') : m.Fetched m' := by
  unfold coreCycle at h
  rw [hstate] at h
  obtain ⟨mf, hfetch, h⟩ := Transition.exists_of_bind_ok h
  obtain ⟨hcore, hbus, hcalls⟩ := fetch_frame hfetch
  have hne : mf.core.state ≠ .trap := by
    rw [hcore, hstate]
    decide
  cases h
  refine ⟨?_, hbus, hcalls⟩
  simp only [Machine.advance, Machine.withCore, Core.advance_of_ne hne]
  rw [hcore]

theorem Machine.Fetched.memory {m m' : Machine} (h : m.Fetched m') :
    m.bus.mmu.SameMemory m'.bus.mmu := by
  cases h.bus with
  | inl heq =>
      rw [heq]
      exact .refl _
  | inr hread => exact hread.memory

theorem Machine.Fetched.unlocked {m m' : Machine} (h : m.Fetched m')
    (hlock : m.bus.mutex = false) : m'.bus.mutex = false := by
  cases h.bus with
  | inl heq =>
      rw [heq]
      exact hlock
  | inr hread => exact hread.unlocked

theorem Machine.Fetched.inRam {m m' : Machine} (h : m.Fetched m') {a : Vaddr} {n : Nat}
    (hram : m.bus.InRam a n) : m'.bus.InRam a n := by
  cases h.bus with
  | inl heq =>
      rw [heq]
      exact hram
  | inr hread => exact hread.inRam hram

/-! ## The other stages -/

variable {residue : BitVec 8} {m : Machine}

theorem coreCycle_decode {dec : Decoded} (hstate : m.core.state = .decode)
    (hdecode : decode m.core = { m.core with decoded := dec }) :
    coreCycle residue m = .ok (m.withCore { m.core with
      decoded := dec, state := .execute, cycle := m.core.cycle + 1 }) := by
  have hne : (decode m.core).state ≠ .trap := by
    rw [hdecode, hstate]
    decide
  unfold coreCycle
  rw [hstate]
  simp only [Machine.advance, Machine.withCore, Core.advance_of_ne hne]
  rw [hdecode]

theorem coreCycle_execute {core : Core} (hstate : m.core.state = .execute)
    (hexecute : execute m.core = .ok core) (hnext : core.state = .execute) :
    coreCycle residue m = .ok (m.withCore { core with
      state := .memory, cycle := core.cycle + 1 }) := by
  have hne : core.state ≠ .trap := by
    rw [hnext]
    decide
  unfold coreCycle
  rw [hstate]
  simp only [hexecute, Transition.ok_bind, Machine.advance, Machine.withCore,
    Core.advance_of_ne hne]
  rfl

theorem coreCycle_memory_eq (hstate : m.core.state = .memory) (residue : BitVec 8) :
    coreCycle residue m =
      memoryAccess residue m >>= fun m' => .ok (m'.advance .writeback) := by
  unfold coreCycle
  rw [hstate]
  rfl

theorem coreCycle_memory {m' : Machine} (hstate : m.core.state = .memory)
    (hmemory : memoryAccess residue m = .ok m') (hnext : m'.core.state = .memory) :
    coreCycle residue m = .ok (m'.withCore { m'.core with
      state := .writeback, cycle := m'.core.cycle + 1 }) := by
  have hne : m'.core.state ≠ .trap := by
    rw [hnext]
    decide
  unfold coreCycle
  rw [hstate]
  simp only [hmemory, Transition.ok_bind, Machine.advance, Machine.withCore,
    Core.advance_of_ne hne]
  rfl

theorem writeback_eq (core : Core) :
    writeback core = { core with
      registers :=
        if core.decoded.writeRd then regW core.registers core.decoded.rd core.aluOut
        else core.registers
      pc := if core.decoded.isJump then core.decoded.jumpTarget else core.pc + 4
      prefetchCnt := if core.decoded.isJump then 0 else core.prefetchCnt } := by
  unfold writeback
  by_cases hwrite : core.decoded.writeRd = true
  · by_cases hjump : core.decoded.isJump = true
    · simp only [hwrite, hjump, if_true]
    · simp only [hwrite, hjump, if_true, if_false, Bool.false_eq_true]
  · by_cases hjump : core.decoded.isJump = true
    · simp only [hwrite, hjump, if_true, if_false, Bool.false_eq_true]
    · simp only [hwrite, hjump, if_false, Bool.false_eq_true]

theorem coreCycle_writeback (hstate : m.core.state = .writeback) :
    coreCycle residue m = .ok (m.withCore { writeback m.core with
      state := .fetch, cycle := m.core.cycle + 1 }) := by
  have hne : (writeback m.core).state ≠ .trap := by
    rw [writeback_eq, hstate]
    decide
  unfold coreCycle
  rw [hstate]
  simp only [Machine.advance, Machine.withCore, Core.advance_of_ne hne]
  rw [writeback_eq]

/-! ## Execution after a fetch -/

theorem memoryAccess_none (hread : m.core.decoded.readMem = false)
    (hwrite : m.core.decoded.writeMem = false) : memoryAccess residue m = .ok m := by
  unfold memoryAccess
  simp only [hread, hwrite, Bool.false_eq_true, if_false]

/-- The four stages after a fetch, none of which traps. -/
theorem coreCycles_stages {dec : Decoded} {core : Core} {m' : Machine} (r1 r2 r3 r4 : BitVec 8)
    (hstate : m.core.state = .decode) (hdecode : decode m.core = { m.core with decoded := dec })
    (hexecute : execute { m.core with
      decoded := dec, state := .execute, cycle := m.core.cycle + 1 } = .ok core)
    (hnext : core.state = .execute)
    (hmemory : memoryAccess r3 (m.withCore { core with
      state := .memory, cycle := core.cycle + 1 }) = .ok m')
    (hnext' : m'.core.state = .memory) :
    coreCycles [r1, r2, r3, r4] m = .ok (m'.withCore { writeback { m'.core with
      state := .writeback, cycle := m'.core.cycle + 1 } with
        state := .fetch, cycle := m'.core.cycle + 1 + 1 }) := by
  rw [coreCycles_cons, coreCycle_decode hstate hdecode, Transition.ok_bind, coreCycles_cons,
    coreCycle_execute rfl hexecute hnext, Transition.ok_bind, coreCycles_cons,
    Machine.withCore_withCore, coreCycle_memory rfl hmemory hnext', Transition.ok_bind,
    coreCycles_cons, coreCycle_writeback rfl, Transition.ok_bind]
  rfl

/-- An instruction that neither goes to memory nor traps. -/
theorem coreCycles_plain {dec dec' : Decoded} {value : Word} {rs : List (BitVec 8)}
    (hlen : rs.length = 4) (hstate : m.core.state = .decode)
    (hdecode : decode m.core = { m.core with decoded := dec })
    (hexecute : ∀ core : Core, core.decoded = dec → core.pc = m.core.pc →
      execute core = .ok { core with decoded := dec', aluOut := value })
    (hread : dec'.readMem = false) (hwrite : dec'.writeMem = false) :
    ∃ m', coreCycles rs m = .ok m' ∧
      m'.core = { m.core with
        state := .fetch
        cycle := m'.core.cycle
        decoded := dec'
        aluOut := value
        registers :=
          if dec'.writeRd then regW m.core.registers dec'.rd value else m.core.registers
        pc := if dec'.isJump then dec'.jumpTarget else m.core.pc + 4
        prefetchCnt := if dec'.isJump then 0 else m.core.prefetchCnt } ∧
      m'.bus = m.bus ∧ m'.calls = m.calls := by
  match rs, hlen with
  | [r1, r2, r3, r4], _ =>
    refine ⟨_, coreCycles_stages r1 r2 r3 r4 hstate hdecode (hexecute _ rfl rfl) rfl
      (memoryAccess_none hread hwrite) rfl, ?_, rfl, rfl⟩
    simp only [Machine.withCore, writeback_eq]

theorem memoryAccess_load {r : Word} {bus : Bus} (hread : m.core.decoded.readMem = true)
    (hbus : busReadSingle residue m.bus (wide m.core.decoded.memOffset)
      m.core.decoded.memAccessWidth = .ok (r, bus))
    (hok : bus.status = .ok) :
    memoryAccess residue m = .ok { m with core := { m.core with aluOut := r }, bus := bus } := by
  unfold memoryAccess
  simp only [hread, if_true, hbus, Transition.ok_bind, hok, ne_eq, not_true_eq_false, if_false]
  rfl

theorem memoryAccess_store {bus : Bus} (hread : m.core.decoded.readMem = false)
    (hwrite : m.core.decoded.writeMem = true)
    (hbus : busWriteSingle m.bus (wide m.core.decoded.memOffset) m.core.aluOut
      m.core.decoded.memAccessWidth = .ok bus)
    (hok : bus.status = .ok) :
    memoryAccess residue m = .ok { m with bus := bus } := by
  unfold memoryAccess
  simp only [hread, hwrite, if_true, Bool.false_eq_true, if_false, hbus, Transition.ok_bind, hok,
    ne_eq, not_true_eq_false]
  rfl

/-- A load that RAM accepts: `rd` gets the bytes as a number, whatever the stage
before had computed. -/
theorem coreCycles_load {dec dec' : Decoded} {value : Word} {rs : List (BitVec 8)}
    (hlen : rs.length = 4) (hstate : m.core.state = .decode)
    (hdecode : decode m.core = { m.core with decoded := dec })
    (hexecute : ∀ core : Core, core.decoded = dec →
      execute core = .ok { core with decoded := dec', aluOut := value })
    (hread : dec'.readMem = true) (hwriteRd : dec'.writeRd = true) (hjump : dec'.isJump = false)
    (hlock : m.bus.mutex = false) (hram : m.bus.InRam dec'.memOffset dec'.memAccessWidth.size)
    (hperm : ∀ i < dec'.memAccessWidth.size, (m.bus.mmu.permFrom dec'.memOffset i).Readable) :
    ∃ m', coreCycles rs m = .ok m' ∧
      m'.core = { m.core with
        state := .fetch
        cycle := m'.core.cycle
        decoded := dec'
        aluOut := m'.core.aluOut
        registers := regW m.core.registers dec'.rd
          (Bytes.ofBytes 32 dec'.memAccessWidth.size (m.bus.mmu.byteFrom dec'.memOffset))
        pc := m.core.pc + 4 } ∧
      m.bus.AfterRead m'.bus := by
  match rs, hlen with
  | [r1, r2, r3, r4], _ =>
    obtain ⟨bus, hbus, hafter, hok⟩ := busReadSingle_accepted r3 hlock hram hperm
    refine ⟨_, coreCycles_stages r1 r2 r3 r4 hstate hdecode (hexecute _ rfl) rfl
      (memoryAccess_load hread hbus hok) rfl, ?_, hafter⟩
    simp only [Machine.withCore, writeback_eq, hwriteRd, hjump, if_true, Bool.false_eq_true,
      if_false]

/-- A store that RAM accepts. -/
theorem coreCycles_store {dec dec' : Decoded} {value : Word} {rs : List (BitVec 8)}
    (hlen : rs.length = 4) (hstate : m.core.state = .decode)
    (hdecode : decode m.core = { m.core with decoded := dec })
    (hexecute : ∀ core : Core, core.decoded = dec →
      execute core = .ok { core with decoded := dec', aluOut := value })
    (hread : dec'.readMem = false) (hwrite : dec'.writeMem = true)
    (hwriteRd : dec'.writeRd = false) (hjump : dec'.isJump = false)
    (hlock : m.bus.mutex = false) (hram : m.bus.InRam dec'.memOffset dec'.memAccessWidth.size)
    (hperm : ∀ i < dec'.memAccessWidth.size, (m.bus.mmu.permFrom dec'.memOffset i).Writable) :
    ∃ m', coreCycles rs m = .ok m' ∧
      m'.core = { m.core with
        state := .fetch
        cycle := m'.core.cycle
        decoded := dec'
        aluOut := value
        pc := m.core.pc + 4 } ∧
      m'.bus.wiring = m.bus.wiring ∧
      m'.bus.mmu =
        m.bus.mmu.written (Bytes.byteAt value) dec'.memOffset dec'.memAccessWidth.bytes ∧
      m'.bus.mutex = false := by
  match rs, hlen with
  | [r1, r2, r3, r4], _ =>
    obtain ⟨bus, hbus, hwiring, hmmu, hunlock, hok⟩ := busWriteSingle_accepted value hlock hram hperm
    refine ⟨_, coreCycles_stages r1 r2 r3 r4 hstate hdecode (hexecute _ rfl) rfl
      (memoryAccess_store hread hwrite hbus hok) rfl, ?_, hwiring, hmmu, hunlock⟩
    simp only [Machine.withCore, writeback_eq, hwriteRd, hjump, Bool.false_eq_true, if_false]

end CRiscV
