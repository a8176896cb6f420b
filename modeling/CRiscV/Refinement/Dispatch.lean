/-
System instructions: which words reach the system call of the emulator.

The opcode that the decode stage keeps has seven bits, so it cannot tell one word
under SYSTEM from another, and the execute stage looks at nothing else.
-/
import CRiscV.Refinement.Trap

namespace CRiscV

open Transition (Run)

/-- The word of `ECALL`. -/
def ecallWord : Word := 0x00000073

/-- Two turns after the fetch, neither of which calls the handler, the core enters a
trap with the cause of a system call. -/
structure EnvCallTurns (t : Turn) (host₁ host₂ : Host) (t₁ t₂ : Turn) : Prop where
  first : QuietStep t host₁ t₁
  second : QuietStep t₁ host₂ t₂
  state : t₂.machine.core.state = .trap
  trapState : t₂.machine.core.trapState = .enter
  cause : t₂.machine.core.csr mcause = wide TrapCause.envCallUmode.code

def Turn.RaisesEnvCall (t : Turn) : Prop :=
  ∀ host₁ host₂, ∃ t₁ t₂, EnvCallTurns t host₁ host₂ t₁ t₂

/-- The turn behind those two is `handle_syscall` on the registers of the
instruction. -/
def Turn.RunsSyscall (t : Turn) : Prop :=
  ∀ host₁ host₂, ∃ t₁ t₂, EnvCallTurns t host₁ host₂ t₁ t₂ ∧ ∀ host,
    emulatorTurn host t₂.machine =
      (handleSyscall host t₂.machine.entered (t.machine.core.registers 17)
        (t.machine.core.registers 10) (t.machine.core.registers 11)
        (t.machine.core.registers 12)).map fun r =>
          { machine := r.2, handled := some t₂.machine.entered, running := r.1 }

section System

variable {core : Core} {t : Turn}

/-- A word under SYSTEM is decoded to its seven bits of opcode. -/
theorem decode_system (hop : Isa.opcode core.instruction = 0b1110011) :
    ∃ dec, decode core = { core with decoded := dec } ∧ dec.optype = .c ∧
      dec.opcode = 0b1110011 := by
  have hformat : decodeTypeTable ((Isa.opcode core.instruction).setWidth 8) = .c := by
    rw [hop]
    rfl
  obtain ⟨dec, hdecode, hoptype, hopcode, -, -⟩ := decode_known (by rw [hformat]; nofun)
  refine ⟨dec, hdecode, hoptype.trans hformat, ?_⟩
  rw [hopcode, hop]
  rfl

/-- `OP_ECALL` is that opcode: its funct3 and its funct7 are zero. -/
theorem execute_system (hformat : core.decoded.optype = .c)
    (hopcode : core.decoded.opcode = 0b1110011) :
    execute core = .ok (causeTrap core .envCallUmode) := by
  have hecall : core.decoded.opcode.setWidth 32 = opEcall := by
    rw [hopcode]
    rfl
  unfold execute
  simp only [hformat]
  rw [if_pos hecall]

/-- A cycle that does not end in front of the handler, as a turn of the loop. -/
theorem quietStep_of_cycle {host : Host} {m : Machine} (hrunning : t.running = true)
    (hcycle : coreCycle (host.residue 0) t.machine = .ok m)
    (hquiet : m.core.state = .trap → m.core.trapState ≠ .handle) :
    QuietStep t host (Turn.first m) := by
  refine ⟨⟨hrunning, ?_⟩, rfl⟩
  rw [emulatorTurn_eq, hcycle, Transition.ok_bind]
  exact handleTrap_quiet hquiet

/-- The machine that the execute stage finds. -/
def Machine.decodedTo (m : Machine) (dec : Decoded) : Machine :=
  m.withCore { m.core with decoded := dec, state := .execute, cycle := m.core.cycle + 1 }

/-- The machine that the execute stage leaves. -/
def Machine.calling (m : Machine) : Machine :=
  m.withCore { causeTrap m.core .envCallUmode with cycle := m.core.cycle + 1 }

/-- The turns of a word under SYSTEM, whichever it is. -/
theorem system_turns (hrunning : t.running = true) (hstate : t.machine.core.state = .decode)
    (hop : Isa.opcode t.machine.core.instruction = 0b1110011) (host₁ host₂ : Host) :
    ∃ t₁ t₂, EnvCallTurns t host₁ host₂ t₁ t₂ ∧
      t₂.machine.core.registers = t.machine.core.registers := by
  obtain ⟨dec, hdecode, hformat, hopcode⟩ := decode_system hop
  have hdecoded : coreCycle (host₁.residue 0) t.machine = .ok (t.machine.decodedTo dec) :=
    coreCycle_decode hstate hdecode
  have hexecuted : coreCycle (host₂.residue 0) (t.machine.decodedTo dec) =
      .ok (t.machine.decodedTo dec).calling := by
    have hexecute : execute (t.machine.decodedTo dec).core =
        .ok (causeTrap (t.machine.decodedTo dec).core .envCallUmode) :=
      execute_system hformat hopcode
    show (execute (t.machine.decodedTo dec).core >>= fun core => _) = _
    rw [hexecute]
    rfl
  refine ⟨_, _, ⟨quietStep_of_cycle hrunning hdecoded nofun,
    quietStep_of_cycle rfl hexecuted (fun _ => nofun), rfl, rfl, ?_⟩, rfl⟩
  exact causeTrap_mcause (t.machine.decodedTo dec).core .envCallUmode

theorem raisesEnvCall_of_system (hrunning : t.running = true)
    (hstate : t.machine.core.state = .decode)
    (hop : Isa.opcode t.machine.core.instruction = 0b1110011) : t.RaisesEnvCall := by
  intro host₁ host₂
  obtain ⟨t₁, t₂, hturns, -⟩ := system_turns hrunning hstate hop host₁ host₂
  exact ⟨t₁, t₂, hturns⟩

theorem runsSyscall_of_system (hrunning : t.running = true)
    (hstate : t.machine.core.state = .decode)
    (hop : Isa.opcode t.machine.core.instruction = 0b1110011) : t.RunsSyscall := by
  intro host₁ host₂
  obtain ⟨t₁, t₂, hturns, hregs⟩ := system_turns hrunning hstate hop host₁ host₂
  refine ⟨t₁, t₂, hturns, ?_⟩
  intro host
  have hcause : t₂.machine.entered.core.csr mcause = wide TrapCause.envCallUmode.code := by
    rw [← hturns.cause]
    exact Csr.set_of_ne t₂.machine.core.csr (show mcause ≠ mepc by decide)
      (wide t₂.machine.core.pc)
  have hepc : t₂.machine.entered.core.csr mepc = wide t₂.machine.core.pc :=
    Csr.set_self t₂.machine.core.csr mepc _
  rw [emulatorTurn_enter hturns.state hturns.trapState, trapHandler_eq hcause hepc, if_pos rfl,
    handleUmodeCall, ← hregs]
  rfl

/-- A word under SYSTEM enters a trap with the cause of a system call, and runs one,
exactly when it is `ECALL`: this holds of the word of `ECALL` and of no other. -/
theorem systemCall_iff (hrunning : t.running = true) (hstate : t.machine.core.state = .decode)
    (hop : Isa.opcode t.machine.core.instruction = 0b1110011) :
    ((t.RaisesEnvCall ↔ t.machine.core.instruction = ecallWord) ∧
      (t.RunsSyscall ↔ t.machine.core.instruction = ecallWord)) ↔
    t.machine.core.instruction = ecallWord := by
  have hraises : t.RaisesEnvCall := raisesEnvCall_of_system hrunning hstate hop
  have hruns : t.RunsSyscall := runsSyscall_of_system hrunning hstate hop
  constructor
  · intro hboth
    exact hboth.1.mp hraises
  · intro hword
    exact ⟨iff_of_true hraises hword, iff_of_true hruns hword⟩

end System

/-- With the number of `close` in a7. -/
def systemMachine (w : Word) : Machine := bufferedMachine w fun r => if r = 17 then 57 else 0

theorem systemMachine_ecall :
    ∃ t, Run (ThreadStep emulatorTurn) (Turn.first (systemMachine ecallWord)) [quietHost] t ∧
      (t.RaisesEnvCall ↔ t.machine.core.instruction = ecallWord) ∧
      (t.RunsSyscall ↔ t.machine.core.instruction = ecallWord) := by
  obtain ⟨t, hrun, hrunning, hstate, hword⟩ :
      ∃ t, Run (ThreadStep emulatorTurn) (Turn.first (systemMachine ecallWord)) [quietHost] t ∧
        t.running = true ∧ t.machine.core.state = .decode ∧
        t.machine.core.instruction = ecallWord :=
    ⟨_, Run.single ⟨rfl, rfl⟩, rfl, rfl, rfl⟩
  have hop : Isa.opcode t.machine.core.instruction = 0b1110011 := by
    rw [hword]
    rfl
  exact ⟨t, hrun, (systemCall_iff hrunning hstate hop).mpr hword⟩

/-- `EBREAK` runs `close`. -/
theorem systemMachine_ebreak :
    ∃ t, Run (ThreadStep emulatorTurn) (Turn.first (systemMachine 0x00100073)) [quietHost] t ∧
      t.machine.core.state = .decode ∧
      Isa.decode t.machine.core.instruction = some .ebreak ∧
      ¬ ((t.RaisesEnvCall ↔ t.machine.core.instruction = ecallWord) ∧
        (t.RunsSyscall ↔ t.machine.core.instruction = ecallWord)) := by
  obtain ⟨t, hrun, hrunning, hstate, hword⟩ :
      ∃ t, Run (ThreadStep emulatorTurn) (Turn.first (systemMachine 0x00100073)) [quietHost] t ∧
        t.running = true ∧ t.machine.core.state = .decode ∧
        t.machine.core.instruction = 0x00100073 :=
    ⟨_, Run.single ⟨rfl, rfl⟩, rfl, rfl, rfl⟩
  have hop : Isa.opcode t.machine.core.instruction = 0b1110011 := by
    rw [hword]
    rfl
  have hruns : t.RunsSyscall := runsSyscall_of_system hrunning hstate hop
  refine ⟨t, hrun, hstate, ?_, ?_⟩
  · rw [hword]
    decide
  · intro honly
    have hecall := honly.2.mp hruns
    rw [hword] at hecall
    exact absurd hecall (by decide)

end CRiscV
