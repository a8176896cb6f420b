/-
Several cores on one bus: `memory_access`, taken apart where another core may run.

The operation on the bus is one step, because it holds the mutex from the first time that it
sets the status to the last.  The status is read behind that: by the test whether the
operation has failed, and once more for the cause of the trap.
-/
import Mathlib.Logic.Function.Basic
import CRiscV.Bus.Run
import CRiscV.Refinement.Fault

namespace CRiscV

open Transition (Run)

/-! ## One core -/

/-- The operation on the bus, with its value stored in the core. -/
def memoryOperation (residue : BitVec 8) (bus : Bus) (core : Core) : Except Abort (Core × Bus) :=
  if core.decoded.readMem then do
    let (r, bus) ←
      busReadSingle residue bus (wide core.decoded.memOffset) core.decoded.memAccessWidth
    return ({ core with aluOut := r }, bus)
  else do
    let bus ←
      busWriteSingle bus (wide core.decoded.memOffset) core.aluOut core.decoded.memAccessWidth
    return (core, bus)

/-- The cause that the status stands for. -/
def Core.accessCause (core : Core) (status : BusStatus) : TrapCause :=
  if core.decoded.readMem then loadCause status else storeCause status

/-- An operation that returned: what it found, and what it left. -/
structure Operation where
  residue : BitVec 8
  found : Bus
  entered : Core
  left : Bus
  core : Core
  atMemory : entered.state = .memory
  accesses : entered.decoded.readMem = true ∨ entered.decoded.writeMem = true
  returns : memoryOperation residue found entered = .ok (core, left)

/-- The core that the status of the operation calls for. -/
def Operation.verdict (o : Operation) : Core :=
  if o.left.status = .ok then o.core else causeTrap o.core (o.core.accessCause o.left.status)

/-- A device carries the access out. -/
def Operation.Taken (o : Operation) (dev : Device) : Prop :=
  if o.entered.decoded.readMem then
    dev.TakesRead o.found.mmu o.entered.decoded.memOffset o.entered.decoded.memAccessWidth
  else
    dev.TakesWrite o.found.mmu o.entered.decoded.memOffset o.entered.aluOut
      o.entered.decoded.memAccessWidth

/-- No device carries the access out. -/
def Operation.Failed (o : Operation) : Prop :=
  ¬ ∃ i dev, o.found.Routes (wide o.entered.decoded.memOffset) i dev ∧ o.Taken dev

/-- A device that the access goes to carries it out, so that the bus notices every failure. -/
def Operation.Noticed (o : Operation) : Prop :=
  ∀ i dev, o.found.Routes (wide o.entered.decoded.memOffset) i dev → o.Taken dev

/-- A load has stored its value in the core, and a store has left the core as it was. -/
theorem Operation.cases (o : Operation) :
    o.entered.decoded.readMem = true ∧
        (∃ r, busReadSingle o.residue o.found (wide o.entered.decoded.memOffset)
          o.entered.decoded.memAccessWidth = .ok (r, o.left) ∧
          o.core = { o.entered with aluOut := r }) ∨
      o.entered.decoded.readMem = false ∧ o.entered.decoded.writeMem = true ∧
        busWriteSingle o.found (wide o.entered.decoded.memOffset) o.entered.aluOut
          o.entered.decoded.memAccessWidth = .ok o.left ∧ o.core = o.entered := by
  obtain ⟨residue, found, entered, left, core, hmemory, haccesses, h⟩ := o
  unfold memoryOperation at h
  simp only
  cases hread : entered.decoded.readMem with
  | true =>
      rw [if_pos hread] at h
      obtain ⟨⟨r, bus⟩, hbus, h⟩ := Transition.exists_of_bind_ok h
      cases h
      exact Or.inl ⟨rfl, r, hbus, rfl⟩
  | false =>
      rw [hread, if_neg Bool.false_ne_true] at h
      obtain ⟨bus, hbus, h⟩ := Transition.exists_of_bind_ok h
      cases h
      have hwrite := haccesses.resolve_left (by rw [hread]; exact Bool.false_ne_true)
      exact Or.inr ⟨rfl, hwrite, hbus, rfl⟩

theorem Operation.core_state (o : Operation) : o.core.state = .memory := by
  rcases o.cases with ⟨-, r, -, hcore⟩ | ⟨-, -, -, hcore⟩
  · rw [hcore]
    exact o.atMemory
  · rw [hcore]
    exact o.atMemory

/-- The verdict is what `memory_access` makes of the core when no other core runs. -/
theorem Operation.memoryAccess_eq (o : Operation) (calls : List HostCall) :
    memoryAccess o.residue { core := o.entered, bus := o.found, calls := calls } =
      .ok { core := o.verdict, bus := o.left, calls := calls } := by
  unfold memoryAccess Operation.verdict Core.accessCause
  simp only
  rcases o.cases with ⟨hread, r, hbus, hcore⟩ | ⟨hread, hwrite, hbus, hcore⟩
  · rw [if_pos hread, hbus, Transition.ok_bind, hcore]
    by_cases hok : o.left.status = .ok
    · rw [if_neg (not_not_intro hok), if_pos hok]
      rfl
    · rw [if_pos hok, if_neg hok, if_pos hread]
      rfl
  · rw [hread, if_neg Bool.false_ne_true, if_pos hwrite, hbus, Transition.ok_bind, hcore]
    by_cases hok : o.left.status = .ok
    · rw [if_neg (not_not_intro hok), if_pos hok]
      rfl
    · rw [if_pos hok, if_neg hok, hread, if_neg Bool.false_ne_true]
      rfl

/-- The status is `ok` exactly when a device has the address. -/
theorem Operation.status_ok_iff (o : Operation) :
    o.left.status = .ok ↔ ∃ i dev, o.found.Routes (wide o.entered.decoded.memOffset) i dev := by
  have hnone : o.found.Unmapped (wide o.entered.decoded.memOffset) →
      ¬ ∃ i dev, o.found.Routes (wide o.entered.decoded.memOffset) i dev := by
    rintro hunmapped ⟨i, dev, hroute⟩
    unfold Bus.Unmapped at hunmapped
    unfold Bus.Routes at hroute
    rw [hunmapped] at hroute
    cases hroute
  rcases o.cases with ⟨-, r, hbus, -⟩ | ⟨-, -, hbus, -⟩
  · obtain ⟨locked, hlock, -⟩ := Transition.exists_of_bind_ok hbus
    obtain ⟨hfree, -⟩ := busLock_eq_ok hlock
    rcases o.found.routes_or_unmapped (wide o.entered.decoded.memOffset) with
      ⟨i, dev, hroute⟩ | hunmapped
    · obtain ⟨dev', mmu', -, hleft⟩ := served_of_busReadSingle hfree hroute hbus
      rw [hleft]
      exact iff_of_true rfl ⟨i, dev, hroute⟩
    · rw [busReadSingle_unmapped hfree hunmapped] at hbus
      have hleft : _ = o.left := congrArg Prod.snd (Except.ok.inj hbus)
      rw [← hleft]
      exact iff_of_false nofun (hnone hunmapped)
  · obtain ⟨locked, hlock, -⟩ := Transition.exists_of_bind_ok hbus
    obtain ⟨hfree, -⟩ := busLock_eq_ok hlock
    rcases o.found.routes_or_unmapped (wide o.entered.decoded.memOffset) with
      ⟨i, dev, hroute⟩ | hunmapped
    · obtain ⟨-, dev', mmu', -, hleft⟩ := served_of_busWriteSingle hfree hroute hbus
      rw [hleft]
      exact iff_of_true rfl ⟨i, dev, hroute⟩
    · rw [busWriteSingle_unmapped hfree hunmapped] at hbus
      have hleft := Except.ok.inj hbus
      rw [← hleft]
      exact iff_of_false nofun (hnone hunmapped)

theorem Operation.trap_iff (o : Operation) : o.verdict.state = .trap ↔ o.left.status ≠ .ok := by
  unfold Operation.verdict
  by_cases hok : o.left.status = .ok
  · rw [if_pos hok, o.core_state]
    exact iff_of_false nofun (not_not_intro hok)
  · rw [if_neg hok]
    exact iff_of_true rfl hok

theorem Operation.Noticed.trap_iff {o : Operation} (h : o.Noticed) :
    o.verdict.state = .trap ↔ o.Failed := by
  rw [o.trap_iff, ne_eq, o.status_ok_iff]
  unfold Operation.Failed
  refine not_congr ?_
  constructor
  · rintro ⟨i, dev, hroute⟩
    exact ⟨i, dev, hroute, h i dev hroute⟩
  · rintro ⟨i, dev, hroute, -⟩
    exact ⟨i, dev, hroute⟩

/-! ## The cores together -/

/-- Where a core is in `memory_access`: outside, behind the operation, behind a test that
was not passed, or at its end. -/
inductive AccessPhase where
  | outside
  | operated (o : Operation)
  | failing (o : Operation)
  | decided (o : Operation)

/-- The core has yet to read the status that the operation left. -/
def AccessPhase.Awaits (phase : AccessPhase) (o : Operation) : Prop :=
  phase = .operated o ∨ phase = .failing o

structure SharedCore where
  core : Core
  phase : AccessPhase

/-- A bus and the cores that share it. -/
structure Shared (ι : Type) where
  bus : Bus
  cores : ι → SharedCore

inductive SharedEvent (ι : Type) where
  /-- Anything outside `memory_access` that does not use the bus. -/
  | work (i : ι)
  /-- A call of the bus outside `memory_access`. -/
  | call (i : ι)
  | operate (i : ι)
  | test (i : ι)
  | report (i : ι)

section Cores

variable {ι : Type} [DecidableEq ι]

def Shared.put (s : Shared ι) (bus : Bus) (i : ι) (core : Core) (phase : AccessPhase) : Shared ι :=
  { bus := bus, cores := Function.update s.cores i { core := core, phase := phase } }

/-- The core is not inside `memory_access`. -/
def Shared.Free (s : Shared ι) (i : ι) : Prop := ∀ o, ¬ (s.cores i).phase.Awaits o

inductive SharedStep (s : Shared ι) : SharedEvent ι → Shared ι → Prop
  | work {i : ι} (hfree : s.Free i) (core : Core) :
      SharedStep s (.work i) (s.put s.bus i core .outside)
  | call {i : ι} {call : BusCall} {answer : BusAnswer} {bus : Bus} (hfree : s.Free i)
      (hcall : busCall s.bus call = .ok (answer, bus)) (core : Core) :
      SharedStep s (.call i) (s.put bus i core .outside)
  | operate {i : ι} (hfree : s.Free i) (o : Operation) (hfound : o.found = s.bus)
      (hentered : o.entered = (s.cores i).core) :
      SharedStep s (.operate i) (s.put o.left i o.core (.operated o))
  | test {i : ι} {o : Operation} (hphase : (s.cores i).phase = .operated o) :
      SharedStep s (.test i)
        (s.put s.bus i (s.cores i).core (if s.bus.status = .ok then .decided o else .failing o))
  | report {i : ι} {o : Operation} (hphase : (s.cores i).phase = .failing o) :
      SharedStep s (.report i)
        (s.put s.bus i (causeTrap (s.cores i).core ((s.cores i).core.accessCause s.bus.status))
          (.decided o))

/-- The event is an operation of core `i` on the bus. -/
def SharedEvent.UsesBus (event : SharedEvent ι) (i : ι) : Prop :=
  event = .call i ∨ event = .operate i

/-- No core uses the bus while another one has yet to read the status. -/
def ExclusiveStep (s : Shared ι) (event : SharedEvent ι) (s' : Shared ι) : Prop :=
  SharedStep s event s' ∧ ∀ i, event.UsesBus i → ∀ j, j ≠ i → s.Free j

/-! ## The status that each core reads -/

/-- The core is where the status of its own operation has led it, and the bus still has that
status if the core has yet to read it. -/
inductive Shared.Own (s : Shared ι) (i : ι) : Prop
  | outside (hphase : (s.cores i).phase = .outside)
  | operated {o : Operation} (hphase : (s.cores i).phase = .operated o)
      (hcore : (s.cores i).core = o.core) (hstatus : s.bus.status = o.left.status)
  | failing {o : Operation} (hphase : (s.cores i).phase = .failing o)
      (hcore : (s.cores i).core = o.core) (hstatus : s.bus.status = o.left.status)
      (hfailed : o.left.status ≠ .ok)
  | decided {o : Operation} (hphase : (s.cores i).phase = .decided o)
      (hcore : (s.cores i).core = o.verdict)

variable {s s' : Shared ι} {i j : ι} {bus : Bus} {core : Core} {phase : AccessPhase}

theorem Shared.put_self : (s.put bus i core phase).cores i = { core := core, phase := phase } :=
  Function.update_self i _ s.cores

theorem Shared.put_other (h : j ≠ i) : (s.put bus i core phase).cores j = s.cores j :=
  Function.update_of_ne h _ s.cores

/-- A step of another core that leaves the status alone. -/
theorem Shared.Own.put_other (h : s.Own j) (hne : j ≠ i) (hstatus : bus.status = s.bus.status) :
    (s.put bus i core phase).Own j := by
  have hsame := @Shared.put_other ι _ s i j bus core phase hne
  cases h with
  | outside hphase => exact .outside (hsame ▸ hphase)
  | operated hphase hcore hown =>
      exact .operated (hsame ▸ hphase) (hsame ▸ hcore) (hstatus.trans hown)
  | failing hphase hcore hown hfailed =>
      exact .failing (hsame ▸ hphase) (hsame ▸ hcore) (hstatus.trans hown) hfailed
  | decided hphase hcore => exact .decided (hsame ▸ hphase) (hsame ▸ hcore)

/-- A core that has read the status does not depend on it. -/
theorem Shared.Own.put_free (h : s.Own j) (hne : j ≠ i) (hfree : s.Free j) :
    (s.put bus i core phase).Own j := by
  have hsame := @Shared.put_other ι _ s i j bus core phase hne
  cases h with
  | outside hphase => exact .outside (hsame ▸ hphase)
  | operated hphase => exact absurd (Or.inl hphase) (hfree _)
  | failing hphase => exact absurd (Or.inr hphase) (hfree _)
  | decided hphase hcore => exact .decided (hsame ▸ hphase) (hsame ▸ hcore)

/-- The test of the status. -/
theorem Shared.Own.test {o : Operation} (h : s.Own i) (hphase : (s.cores i).phase = .operated o) :
    (s.put s.bus i (s.cores i).core (if s.bus.status = .ok then .decided o else .failing o)).Own
      i := by
  cases h with
  | outside hphase' => cases hphase'.symm.trans hphase
  | failing hphase' => cases hphase'.symm.trans hphase
  | decided hphase' => cases hphase'.symm.trans hphase
  | operated hphase' hcore hstatus =>
      cases hphase'.symm.trans hphase
      by_cases hok : s.bus.status = .ok
      · rw [if_pos hok]
        refine .decided (by rw [Shared.put_self]) ?_
        rw [Shared.put_self, Operation.verdict, if_pos (hstatus.symm.trans hok)]
        exact hcore
      · rw [if_neg hok]
        refine .failing (by rw [Shared.put_self]) ?_ hstatus (hstatus ▸ hok)
        rw [Shared.put_self]
        exact hcore

/-- The choice of the cause. -/
theorem Shared.Own.report {o : Operation} (h : s.Own i) (hphase : (s.cores i).phase = .failing o) :
    (s.put s.bus i (causeTrap (s.cores i).core ((s.cores i).core.accessCause s.bus.status))
      (.decided o)).Own i := by
  cases h with
  | outside hphase' => cases hphase'.symm.trans hphase
  | operated hphase' => cases hphase'.symm.trans hphase
  | decided hphase' => cases hphase'.symm.trans hphase
  | failing hphase' hcore hstatus hfailed =>
      cases hphase'.symm.trans hphase
      refine .decided (by rw [Shared.put_self]) ?_
      rw [Shared.put_self, Operation.verdict, if_neg hfailed, hcore, hstatus]

theorem ExclusiveStep.own {event : SharedEvent ι} (h : ExclusiveStep s event s')
    (hown : ∀ j, s.Own j) (j : ι) : s'.Own j := by
  obtain ⟨hstep, halone⟩ := h
  cases hstep with
  | @work i hfree core =>
      by_cases hji : j = i
      · exact .outside (by rw [hji, Shared.put_self])
      · exact (hown j).put_other hji rfl
  | @call i call answer bus hfree hcall core =>
      by_cases hji : j = i
      · exact .outside (by rw [hji, Shared.put_self])
      · exact (hown j).put_free hji (halone i (Or.inl rfl) j hji)
  | @operate i hfree o hfound hentered =>
      by_cases hji : j = i
      · exact .operated (by rw [hji, Shared.put_self]) (by rw [hji, Shared.put_self]) rfl
      · exact (hown j).put_free hji (halone i (Or.inr rfl) j hji)
  | @test i o hphase =>
      by_cases hji : j = i
      · rw [hji]
        exact (hown i).test hphase
      · exact (hown j).put_other hji rfl
  | @report i o hphase =>
      by_cases hji : j = i
      · rw [hji]
        exact (hown i).report hphase
      · exact (hown j).put_other hji rfl

/-- In a run in which no core uses the bus while another one has yet to read the status, a core
that has yet to read it will read that of its own operation, and at the end it is the core that
`memory_access` makes of that status; it has entered a trap exactly when its access failed,
where the bus notices that. -/
theorem ownStatus_run {events : List (SharedEvent ι)}
    (hstart : ∀ i, (s.cores i).phase = .outside) (hrun : Run ExclusiveStep s events s')
    (i : ι) (o : Operation) :
    ((s'.cores i).phase.Awaits o → s'.bus.status = o.left.status) ∧
      ((s'.cores i).phase = .decided o →
        (s'.cores i).core = o.verdict ∧
          (o.Noticed → ((s'.cores i).core.state = .trap ↔ o.Failed))) := by
  have hown : ∀ j, s'.Own j := by
    induction hrun with
    | nil => exact fun j => .outside (hstart j)
    | snoc _ hstep ih => exact hstep.own ih
  cases hown i with
  | outside hphase =>
      rw [hphase]
      refine ⟨?_, nofun⟩
      rintro (hawaits | hawaits)
      · cases hawaits
      · cases hawaits
  | operated hphase hcore hstatus =>
      rw [hphase]
      refine ⟨?_, nofun⟩
      rintro (hawaits | hawaits)
      · cases hawaits
        exact hstatus
      · cases hawaits
  | failing hphase hcore hstatus hfailed =>
      rw [hphase]
      refine ⟨?_, nofun⟩
      rintro (hawaits | hawaits)
      · cases hawaits
      · cases hawaits
        exact hstatus
  | decided hphase hcore =>
      rw [hphase]
      refine ⟨?_, ?_⟩
      · rintro (hawaits | hawaits)
        · cases hawaits
        · cases hawaits
      · intro hdecided
        cases hdecided
        refine ⟨hcore, fun hnoticed => ?_⟩
        rw [hcore]
        exact hnoticed.trap_iff

end Cores

theorem Shared.free_of_outside {ι : Type} {s : Shared ι} {i : ι}
    (h : (s.cores i).phase = .outside) : s.Free i := by
  rintro o (hawaits | hawaits)
  · cases h.symm.trans hawaits
  · cases h.symm.trans hawaits

theorem Shared.free_of_decided {ι : Type} {s : Shared ι} {i : ι} {o : Operation}
    (h : (s.cores i).phase = .decided o) : s.Free i := by
  rintro o' (hawaits | hawaits)
  · cases h.symm.trans hawaits
  · cases h.symm.trans hawaits

/-! ## Two cores -/

/-- At the memory stage of a load from address 0, which no device has. -/
def loadingCore : Core :=
  { cpuInitCore with
    state := .memory
    decoded := { cpuInitCore.decoded with readMem := true, memAccessWidth := .word } }

/-- At the memory stage of a store of 7 to the start of RAM. -/
def storingCore : Core :=
  { cpuInitCore with
    state := .memory
    aluOut := 7
    decoded :=
      { cpuInitCore.decoded with
        writeMem := true, memOffset := 0x10000, memAccessWidth := .word } }

/-- The load on the emulator's bus, over any memory. -/
def missedLoad (mmu : Mmu) : Operation where
  residue := 0
  found := mainBus mmu
  entered := loadingCore
  left := { mainBus mmu with status := .addressNotFound }
  core := { loadingCore with aluOut := 0x0badc0de }
  atMemory := rfl
  accesses := Or.inl rfl
  returns := rfl

def storedMmu : Mmu := rawMmu.written (Bytes.byteAt (7 : Word)) 0x10000 Width.word.bytes

theorem rawMmu_accepts : rawMmu.Accepts 0x10000 Width.word.bytes mpermWrite := by
  rw [Mmu.accepts_write_iff (by decide) (by decide)]
  exact ⟨⟨by decide, by decide⟩, fun _ _ => (by decide : (mpermWrite ||| mpermRaw).Writable)⟩

theorem storedMmu_written (status : BusStatus) :
    busWriteSingle (emulatorBus .ready .ready false status rawMmu) (wide 0x10000) 7 .word =
      .ok (mainBus storedMmu) := by
  rw [busWriteSingle_routed rfl (emulatorBus_ram (by decide)) rfl]
  have hoffs : (wide 0x10000).setWidth 32 = (0x10000 : Word) := by decide
  have hmmu : (emulatorBus .ready .ready false status rawMmu).mmu = rawMmu := rfl
  have hdevice : ∀ mmu, (ramDevice .ready).writeSingle mmu 0x10000 7 .word =
      writeRamSingle (ramDevice .ready) mmu 0x10000 7 .word := fun _ => rfl
  rw [hoffs, hmmu, hdevice, writeRamSingle_accepted rawMmu_accepts, Transition.ok_bind]
  rfl

/-- The store on the emulator's bus, with any status. -/
def servedStore (status : BusStatus) : Operation where
  residue := 0
  found := emulatorBus .ready .ready false status rawMmu
  entered := storingCore
  left := mainBus storedMmu
  core := storingCore
  atMemory := rfl
  accesses := Or.inr rfl
  returns := by
    show (busWriteSingle (emulatorBus .ready .ready false status rawMmu) (wide 0x10000) 7 .word >>=
      fun bus => .ok (storingCore, bus)) = .ok (storingCore, mainBus storedMmu)
    rw [storedMmu_written, Transition.ok_bind]

theorem missedLoad_failed (mmu : Mmu) : (missedLoad mmu).Failed := by
  have hstatus : (missedLoad mmu).left.status ≠ .ok := nofun
  rw [ne_eq, Operation.status_ok_iff] at hstatus
  rintro ⟨i, dev, hroute, -⟩
  exact hstatus ⟨i, dev, hroute⟩

/-- Two cores in front of those accesses. -/
def twoCores : Shared (Fin 2) where
  bus := mainBus rawMmu
  cores := fun i => { core := if i = 0 then loadingCore else storingCore, phase := .outside }

/-- Core 1 is through with its store before core 0 loads, and each is what it would be alone. -/
theorem missedLoad_traps : ∃ s',
    Run ExclusiveStep twoCores [.operate 1, .test 1, .operate 0, .test 0, .report 0] s' ∧
    memoryAccess 0 { core := storingCore, bus := mainBus rawMmu, calls := [] } =
      .ok { core := (s'.cores 1).core, bus := mainBus storedMmu, calls := [] } ∧
    (s'.cores 1).core.state = .memory ∧
    memoryAccess 0 { core := loadingCore, bus := mainBus storedMmu, calls := [] } =
      .ok { core := (s'.cores 0).core, bus := s'.bus, calls := [] } ∧
    (s'.cores 0).core.state = .trap := by
  have hfree : ∀ j, twoCores.Free j := fun _ => Shared.free_of_outside rfl
  obtain ⟨stored, hstored, hbus, hloading, hdecided⟩ : ∃ stored,
      Run ExclusiveStep twoCores [.operate 1, .test 1] stored ∧ stored.bus = mainBus storedMmu ∧
      stored.cores 0 = ⟨loadingCore, .outside⟩ ∧
      (stored.cores 1).phase = .decided (servedStore .ok) :=
    ⟨_, (Run.single
      ⟨.operate (hfree 1) (servedStore .ok) rfl rfl, fun _ _ j _ => hfree j⟩).snoc
      ⟨.test rfl, by rintro i (h | h) <;> cases h⟩, rfl, rfl, rfl⟩
  have hothers : ∀ j : Fin 2, j ≠ 0 → stored.Free j := by
    intro j hj
    rw [Fin.eq_one_of_ne_zero j hj]
    exact Shared.free_of_decided hdecided
  have hload : ExclusiveStep stored (.operate 0) _ :=
    ⟨.operate (Shared.free_of_outside (by rw [hloading])) (missedLoad storedMmu) hbus.symm
      (by rw [hloading]; rfl), by
      rintro i (h | h) j hji
      · cases h
      · cases h
        exact hothers j hji⟩
  have hrun := ((hstored.snoc hload).snoc
    ⟨.test (congrArg SharedCore.phase Shared.put_self),
      by rintro i (h | h) <;> cases h⟩).snoc
    ⟨.report (congrArg SharedCore.phase Shared.put_self), by rintro i (h | h) <;> cases h⟩
  obtain ⟨hstore, -⟩ := (ownStatus_run (fun _ => rfl) hrun 1 (servedStore .ok)).2 hdecided
  obtain ⟨hmissed, -⟩ := (ownStatus_run (fun _ => rfl) hrun 0 (missedLoad storedMmu)).2
    (congrArg SharedCore.phase Shared.put_self)
  refine ⟨_, hrun, ?_, by rw [hstore]; rfl, ?_, by rw [hmissed]; rfl⟩
  · rw [hstore]
    exact (servedStore .ok).memoryAccess_eq []
  · rw [hmissed]
    exact (missedLoad storedMmu).memoryAccess_eq []

/-- A load that fails and is taken for one that succeeded, and a store that succeeds and is
taken for one that failed. -/
theorem ownStatus_lost :
    (∃ s', Run SharedStep twoCores [.operate 0, .operate 1, .test 0] s' ∧
      (s'.cores 0).phase = .decided (missedLoad rawMmu) ∧ (missedLoad rawMmu).Failed ∧
      (missedLoad rawMmu).left.status = .addressNotFound ∧ (s'.cores 0).core.state = .memory) ∧
    ∃ s', Run SharedStep twoCores [.operate 1, .operate 0, .test 1, .report 1] s' ∧
      (s'.cores 1).phase = .decided (servedStore .ok) ∧ ¬ (servedStore .ok).Failed ∧
      (servedStore .ok).left.status = .ok ∧ (s'.cores 1).core.state = .trap ∧
      (s'.cores 1).core.csr mcause = wide TrapCause.storeAccessFault.code := by
  have hfree : ∀ j, twoCores.Free j := fun _ => Shared.free_of_outside rfl
  have hserved : ¬ (servedStore .ok).Failed := not_not_intro
    ⟨0, ramDevice .ready, emulatorBus_ram (by decide), rfl, rawMmu_accepts⟩
  refine ⟨⟨_, ((Run.single (.operate (hfree 0) (missedLoad rawMmu) rfl rfl)).snoc
    (.operate (Shared.free_of_outside rfl) (servedStore .addressNotFound) rfl rfl)).snoc
    (.test rfl), rfl, missedLoad_failed rawMmu, rfl, rfl⟩, ?_⟩
  exact ⟨_, (((Run.single (.operate (hfree 1) (servedStore .ok) rfl rfl)).snoc
    (.operate (Shared.free_of_outside rfl) (missedLoad storedMmu) rfl rfl)).snoc
    (.test rfl)).snoc (.report rfl), rfl, hserved, rfl, rfl, rfl⟩

end CRiscV
