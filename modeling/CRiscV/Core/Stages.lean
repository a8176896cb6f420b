/-
What each stage can do to the core, and a cycle of each stage from that.
-/
import CRiscV.Core.Pipeline

namespace CRiscV

/-- The outcomes of the three stages that carry an instruction out: they set the
latches between the stages, and may cause a trap after that. -/
inductive Core.Outcome (core : Core) : Core → Prop
  | done (dec : Decoded) (aluOut : Word) :
      Outcome core { core with decoded := dec, aluOut := aluOut }
  | trapped (dec : Decoded) (aluOut : Word) (cause : TrapCause) :
      Outcome core (causeTrap { core with decoded := dec, aluOut := aluOut } cause)

theorem decode_outcome (core : Core) : core.Outcome (decode core) := by
  by_cases hknown : decodeTypeTable ((Isa.opcode core.instruction).setWidth 8) = .unknown
  · rw [decode_unknown hknown]
    exact .trapped _ core.aluOut _
  · obtain ⟨dec, hdecode, -⟩ := decode_known hknown
    rw [hdecode]
    exact .done dec core.aluOut

/-- The core with other latches. -/
def Core.SetsLatches (core core' : Core) : Prop :=
  ∃ dec aluOut, core' = { core with decoded := dec, aluOut := aluOut }

theorem setsLatches_ok {core : Core} (dec : Decoded) (aluOut : Word) :
    Transition.Returns core.SetsLatches
      (.ok { core with decoded := dec, aluOut := aluOut } : Except Abort Core) :=
  Transition.returns_ok ⟨dec, aluOut, rfl⟩

theorem executeI_setsLatches (core : Core) :
    Transition.Returns core.SetsLatches (executeI core) := by
  unfold executeI
  repeat' apply Transition.returns_ite
  all_goals first | exact setsLatches_ok _ _ | exact Transition.returns_error _

theorem executeS_setsLatches (core : Core) :
    Transition.Returns core.SetsLatches (executeS core) := by
  unfold executeS
  repeat' apply Transition.returns_ite
  all_goals first | exact setsLatches_ok _ _ | exact Transition.returns_error _

theorem execute_outcome {core core' : Core} (h : execute core = .ok core') :
    core.Outcome core' := by
  unfold execute at h
  cases hoptype : core.decoded.optype with
  | unknown =>
      simp only [hoptype] at h
      cases h
      exact .trapped core.decoded core.aluOut _
  | r =>
      simp only [hoptype] at h
      split at h
      · cases h
        exact .done _ _
      · cases h
        exact .trapped _ core.aluOut _
  | i =>
      simp only [hoptype] at h
      obtain ⟨dec, aluOut, rfl⟩ := executeI_setsLatches _ core' h
      exact .done dec aluOut
  | s =>
      simp only [hoptype] at h
      obtain ⟨dec, aluOut, rfl⟩ := executeS_setsLatches _ core' h
      exact .done dec aluOut
  | b =>
      simp only [hoptype] at h
      cases h
      exact .done _ _
  | u =>
      simp only [hoptype] at h
      split_ifs at h
      all_goals
        cases h
        exact .done _ _
  | j =>
      simp only [hoptype] at h
      split_ifs at h
      · cases h
        exact .done _ _
      · cases h
        exact .done _ core.aluOut
  | c =>
      simp only [hoptype] at h
      split_ifs at h
      · cases h
        exact .trapped core.decoded core.aluOut _
      · cases h
        exact .trapped core.decoded core.aluOut _

/-! ## The bus at the memory stage -/

/-- A write that the bus reports as failed went to no device. -/
theorem busWriteSingle_failed {bus bus' : Bus} {offs : Size} {value : Word} {aw : Width}
    (h : busWriteSingle bus offs value aw = .ok bus') (hstatus : bus'.status ≠ .ok) :
    bus' = { bus with mutex := false, status := .addressNotFound } := by
  obtain ⟨locked, hlock, -⟩ := Transition.exists_of_bind_ok h
  obtain ⟨hfree, -⟩ := busLock_eq_ok hlock
  rcases bus.routes_or_unmapped offs with ⟨i, dev, hroute⟩ | hnone
  · by_cases hperm : dev.perm &&& mmioWrite = mmioWrite
    · rw [busWriteSingle_routed hfree hroute hperm] at h
      obtain ⟨⟨dev', mmu'⟩, -, h⟩ := Transition.exists_of_bind_ok h
      cases h
      exact absurd rfl hstatus
    · rw [busWriteSingle_readOnly hfree hroute hperm] at h
      cases h
  · rw [busWriteSingle_unmapped hfree hnone] at h
    cases h
    rfl

/-! ## Cycles -/

/-- What a cycle of one of these stages leaves: the next stage with other latches,
or a trap with RAM as it was. -/
inductive Machine.Outcome (m : Machine) (next : CoreState) : Machine → Prop
  | done (dec : Decoded) (aluOut : Word) (bus : Bus) :
      Outcome m next
        { core := { m.core with
            decoded := dec, aluOut := aluOut, state := next, cycle := m.core.cycle + 1 }
          bus := bus
          calls := m.calls }
  | trapped (dec : Decoded) (aluOut : Word) (bus : Bus) (cause : TrapCause)
      (memory : m.bus.mmu.SameMemory bus.mmu) :
      Outcome m next
        { core := { causeTrap { m.core with decoded := dec, aluOut := aluOut } cause with
            cycle := m.core.cycle + 1 }
          bus := bus
          calls := m.calls }

section Cycles

variable {residue : BitVec 8} {m m' : Machine}

theorem Machine.Outcome.advanced (hne : m.core.state ≠ .trap) (next : CoreState)
    (dec : Decoded) (aluOut : Word) (bus : Bus) :
    m.Outcome next (Machine.advance next
      { core := { m.core with decoded := dec, aluOut := aluOut }, bus := bus, calls := m.calls }) := by
  have hadvance := Core.advance_of_ne
    (show Core.state { m.core with decoded := dec, aluOut := aluOut } ≠ .trap from hne) next
  unfold Machine.advance Machine.withCore
  rw [hadvance]
  exact .done dec aluOut bus

theorem Core.Outcome.advance {core : Core} (h : m.core.Outcome core)
    (hne : m.core.state ≠ .trap) (next : CoreState) :
    m.Outcome next ((m.withCore core).advance next) := by
  cases h with
  | done dec aluOut => exact .advanced hne next dec aluOut m.bus
  | trapped dec aluOut cause => exact .trapped dec aluOut m.bus cause (.refl _)

theorem coreCycle_decode_outcome (hstate : m.core.state = .decode)
    (h : coreCycle residue m = .ok m') : m.Outcome .execute m' ∧ m'.bus = m.bus := by
  have hne : m.core.state ≠ .trap := by
    rw [hstate]
    decide
  unfold coreCycle at h
  rw [hstate] at h
  cases h
  exact ⟨(decode_outcome m.core).advance hne .execute, rfl⟩

theorem coreCycle_execute_outcome (hstate : m.core.state = .execute)
    (h : coreCycle residue m = .ok m') : m.Outcome .memory m' ∧ m'.bus = m.bus := by
  have hne : m.core.state ≠ .trap := by
    rw [hstate]
    decide
  unfold coreCycle at h
  rw [hstate] at h
  obtain ⟨core, hexecute, h⟩ := Transition.exists_of_bind_ok h
  cases h
  exact ⟨(execute_outcome hexecute).advance hne .memory, rfl⟩

/-- What the memory stage does, by what the instruction asks for and what the bus says. -/
inductive Machine.Accesses (residue : BitVec 8) (m : Machine) : Machine → Prop
  | loaded {r : Word} {bus : Bus} (readMem : m.core.decoded.readMem = true)
      (call : busReadSingle residue m.bus (wide m.core.decoded.memOffset)
        m.core.decoded.memAccessWidth = .ok (r, bus)) (status : bus.status = .ok) :
      Accesses residue m { m with core := { m.core with aluOut := r }, bus := bus }
  | loadFailed {r : Word} {bus : Bus} (readMem : m.core.decoded.readMem = true)
      (call : busReadSingle residue m.bus (wide m.core.decoded.memOffset)
        m.core.decoded.memAccessWidth = .ok (r, bus)) (status : bus.status ≠ .ok) :
      Accesses residue m
        { m with
          core := causeTrap { m.core with aluOut := r } (loadCause bus.status)
          bus := bus }
  | stored {bus : Bus} (readMem : m.core.decoded.readMem = false)
      (writeMem : m.core.decoded.writeMem = true)
      (call : busWriteSingle m.bus (wide m.core.decoded.memOffset) m.core.aluOut
        m.core.decoded.memAccessWidth = .ok bus) (status : bus.status = .ok) :
      Accesses residue m { m with bus := bus }
  | storeFailed {bus : Bus} (readMem : m.core.decoded.readMem = false)
      (writeMem : m.core.decoded.writeMem = true)
      (call : busWriteSingle m.bus (wide m.core.decoded.memOffset) m.core.aluOut
        m.core.decoded.memAccessWidth = .ok bus) (status : bus.status ≠ .ok) :
      Accesses residue m
        { m with core := causeTrap m.core (storeCause bus.status), bus := bus }
  | none (readMem : m.core.decoded.readMem = false) (writeMem : m.core.decoded.writeMem = false) :
      Accesses residue m m

theorem memoryAccess_cases (h : memoryAccess residue m = .ok m') : m.Accesses residue m' := by
  unfold memoryAccess at h
  simp only at h
  cases hread : m.core.decoded.readMem with
  | true =>
      rw [if_pos hread] at h
      obtain ⟨⟨r, bus⟩, hbus, h⟩ := Transition.exists_of_bind_ok h
      simp only at h
      by_cases hok : bus.status = .ok
      · rw [if_neg (not_not_intro hok)] at h
        cases h
        exact .loaded hread hbus hok
      · rw [if_pos hok] at h
        cases h
        exact .loadFailed hread hbus hok
  | false =>
      rw [if_neg (by rw [hread]; exact Bool.false_ne_true)] at h
      cases hwrite : m.core.decoded.writeMem with
      | true =>
          rw [if_pos hwrite] at h
          obtain ⟨bus, hbus, h⟩ := Transition.exists_of_bind_ok h
          by_cases hok : bus.status = .ok
          · rw [if_neg (not_not_intro hok)] at h
            cases h
            exact .stored hread hwrite hbus hok
          · rw [if_pos hok] at h
            cases h
            exact .storeFailed hread hwrite hbus hok
      | false =>
          rw [if_neg (by rw [hwrite]; exact Bool.false_ne_true)] at h
          cases h
          exact .none hread hwrite

theorem coreCycle_memory_cases (hstate : m.core.state = .memory)
    (h : coreCycle residue m = .ok m') :
    ∃ ma, m.Accesses residue ma ∧ m' = ma.advance .writeback := by
  rw [coreCycle_memory_eq hstate] at h
  obtain ⟨ma, haccess, h⟩ := Transition.exists_of_bind_ok h
  cases h
  exact ⟨ma, memoryAccess_cases haccess, rfl⟩

theorem coreCycle_memory_outcome (hstate : m.core.state = .memory)
    (h : coreCycle residue m = .ok m') : m.Outcome .writeback m' := by
  have hne : m.core.state ≠ .trap := by
    rw [hstate]
    decide
  obtain ⟨ma, haccess, rfl⟩ := coreCycle_memory_cases hstate h
  cases haccess with
  | @loaded r bus => exact .advanced hne _ m.core.decoded r bus
  | @loadFailed r bus _ hcall =>
      exact .trapped m.core.decoded r bus _ (busReadSingle_frame hcall).memory
  | @stored bus => exact .advanced hne _ m.core.decoded m.core.aluOut bus
  | @storeFailed bus _ _ hcall hfailed =>
      refine .trapped m.core.decoded m.core.aluOut bus _ ?_
      rw [busWriteSingle_failed hcall hfailed]
      exact .refl _
  | none => exact .advanced hne _ m.core.decoded m.core.aluOut m.bus

/-- The memory stage leaves the fields of the instruction as they are. -/
theorem coreCycle_memory_decoded (hstate : m.core.state = .memory)
    (h : coreCycle residue m = .ok m') : m'.core.decoded = m.core.decoded := by
  obtain ⟨ma, haccess, rfl⟩ := coreCycle_memory_cases hstate h
  cases haccess with
  | loaded | loadFailed | stored | storeFailed | none => rfl

/-- What the memory stage may do to RAM. -/
theorem coreCycle_memory_mmu (hstate : m.core.state = .memory)
    (h : coreCycle residue m = .ok m') :
    m.bus.mmu.SameMemory m'.bus.mmu ∨
      m.core.decoded.readMem = false ∧ m.core.decoded.writeMem = true ∧
        m.bus.Stores m.core.decoded.memOffset m.core.decoded.memAccessWidth ∧
        m'.bus.mmu = m.bus.mmu.written (Bytes.byteAt m.core.aluOut) m.core.decoded.memOffset
          m.core.decoded.memAccessWidth.bytes := by
  obtain ⟨ma, haccess, rfl⟩ := coreCycle_memory_cases hstate h
  cases haccess with
  | loaded _ hcall | loadFailed _ hcall => exact Or.inl (busReadSingle_frame hcall).memory
  | stored hread hwrite hcall | storeFailed hread hwrite hcall =>
      cases busWriteSingle_mmu hcall with
      | inl hsame => exact Or.inl hsame
      | inr hwritten => exact Or.inr ⟨hread, hwrite, hwritten⟩
  | none => exact Or.inl (.refl _)

end Cycles

/-! ## The trap cycles -/

section TrapCycles

variable {m : Machine} {residue : BitVec 8}

/-- The machine that the first cycle of a trap hands to the handler. -/
def Machine.entered (m : Machine) : Machine :=
  m.withCore { m.core with
    trapRegs := m.core.registers
    prefetchCnt := 0
    trapPc := m.core.pc
    csr := m.core.csr.set mepc (wide m.core.pc)
    trapState := .handle
    cycle := m.core.cycle + 1 }

/-- After its second cycle. -/
def Machine.exiting (m : Machine) : Machine :=
  m.withCore { m.core with trapState := .exit, cycle := m.core.cycle + 1 }

/-- After its third. -/
def Machine.resumed (m : Machine) : Machine :=
  m.withCore { m.core with
    registers := m.core.trapRegs
    pc := (csrReadClear32 m.core.csr mepc 0).1 + 4
    csr := (csrReadClear32 m.core.csr mepc 0).2
    trapState := .none
    state := .fetch
    prefetchCnt := 0
    cycle := m.core.cycle + 1 }

theorem coreCycle_enter (htrap : m.core.state = .trap) (henter : m.core.trapState = .enter) :
    coreCycle residue m = .ok m.entered := by
  unfold coreCycle trap
  rw [htrap, henter]
  simp only [Transition.ok_bind, Machine.entered, Machine.advance, Core.advance, Machine.withCore,
    htrap]
  rfl

theorem coreCycle_handle (htrap : m.core.state = .trap) (hhandle : m.core.trapState = .handle) :
    coreCycle residue m = .ok m.exiting := by
  unfold coreCycle trap
  rw [htrap, hhandle]
  simp only [Transition.ok_bind, Machine.exiting, Machine.advance, Core.advance, Machine.withCore,
    htrap]
  rfl

theorem coreCycle_exit (htrap : m.core.state = .trap) (hexit : m.core.trapState = .exit) :
    coreCycle residue m = .ok m.resumed := by
  unfold coreCycle trap
  rw [htrap, hexit]
  rfl

theorem coreCycle_untrapped (htrap : m.core.state = .trap) (hnone : m.core.trapState = .none) :
    coreCycle residue m = .error .assertion := by
  unfold coreCycle trap
  rw [htrap, hnone]
  rfl

/-- What a cycle does, by the stage that the core is at. -/
inductive Machine.Cycle (m : Machine) : Machine → Prop
  | fetched {m' : Machine} (state : m.core.state = .fetch) (fetched : m.Fetched m') : Cycle m m'
  | decoded {m' : Machine} (state : m.core.state = .decode) (outcome : m.Outcome .execute m')
      (bus : m'.bus = m.bus) : Cycle m m'
  | executed {m' : Machine} (state : m.core.state = .execute) (outcome : m.Outcome .memory m')
      (bus : m'.bus = m.bus) : Cycle m m'
  | accessed {m' : Machine} (state : m.core.state = .memory) (outcome : m.Outcome .writeback m') :
      Cycle m m'
  | written (state : m.core.state = .writeback) :
      Cycle m (m.withCore { writeback m.core with state := .fetch, cycle := m.core.cycle + 1 })
  | entered (state : m.core.state = .trap) (trapState : m.core.trapState = .enter) :
      Cycle m m.entered
  | exiting (state : m.core.state = .trap) (trapState : m.core.trapState = .handle) :
      Cycle m m.exiting
  | resumed (state : m.core.state = .trap) (trapState : m.core.trapState = .exit) :
      Cycle m m.resumed

theorem coreCycle_cases {m' : Machine} (h : coreCycle residue m = .ok m') : m.Cycle m' := by
  cases hstate : m.core.state with
  | fetch => exact .fetched hstate (coreCycle_fetched hstate h)
  | decode =>
      obtain ⟨hout, hbus⟩ := coreCycle_decode_outcome hstate h
      exact .decoded hstate hout hbus
  | execute =>
      obtain ⟨hout, hbus⟩ := coreCycle_execute_outcome hstate h
      exact .executed hstate hout hbus
  | memory => exact .accessed hstate (coreCycle_memory_outcome hstate h)
  | writeback =>
      rw [coreCycle_writeback hstate] at h
      cases h
      exact .written hstate
  | trap =>
      cases htrap : m.core.trapState with
      | none =>
          rw [coreCycle_untrapped hstate htrap] at h
          cases h
      | enter =>
          rw [coreCycle_enter hstate htrap] at h
          cases h
          exact .entered hstate htrap
      | handle =>
          rw [coreCycle_handle hstate htrap] at h
          cases h
          exact .exiting hstate htrap
      | exit =>
          rw [coreCycle_exit hstate htrap] at h
          cases h
          exact .resumed hstate htrap

end TrapCycles

end CRiscV
