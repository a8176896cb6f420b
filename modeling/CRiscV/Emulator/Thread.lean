/-
The trap handler and the thread loop of emulator.c.
-/
import CRiscV.Emulator.Syscall

namespace CRiscV

/-- `handle_umode_call`: the number is in a7, the arguments in a0 and up. -/
def handleUmodeCall (host : Host) (m : Machine) : Except Abort (Bool × Machine) :=
  let regs := m.core.registers
  handleSyscall host m (regs 17) (regs 10) (regs 11) (regs 12)

/-- `trap_handler`.  Every cause but one is reported and ends the core. -/
def trapHandler (host : Host) (m : Machine) : Except Abort (Bool × Machine) :=
  let (cause, csr) := csrReadClear32 m.core.csr mcause 0
  let (_, csr) := csrReadClear32 csr mepc 0
  let m := m.withCore { m.core with csr := csr }
  if cause = TrapCause.envCallUmode.code then handleUmodeCall host m else .ok (false, m)

/-- The value of `core->trap_handler`. -/
abbrev TrapHandler := Host → Machine → Except Abort (Bool × Machine)

/-- What one turn of the thread loop did. -/
structure Turn where
  machine : Machine
  /-- The machine that the trap handler was called on, if it was called. -/
  handled : Option Machine
  /-- Whether the loop goes on. -/
  running : Bool

/-- The part of the loop of `cpu_thread` behind `core_cycle`. -/
def handleTrap (handler : Option TrapHandler) (host : Host) (m : Machine) : Except Abort Turn :=
  if m.core.state = .trap ∧ m.core.trapState = .handle then
    match handler with
    | some handler => do
        let (running, m') ← handler host m
        return { machine := m', handled := some m, running := running }
    | none => return { machine := m, handled := none, running := false }
  else return { machine := m, handled := none, running := true }

/-- One turn of the loop of `cpu_thread`. -/
def cpuThreadTurn (handler : Option TrapHandler) (host : Host) (m : Machine) :
    Except Abort Turn := do
  let m ← coreCycle (host.residue 0) m
  handleTrap handler host m

/-- The loop in `emulator_run`, which gives every core the same handler. -/
def emulatorTurn (host : Host) (m : Machine) : Except Abort Turn :=
  cpuThreadTurn (some trapHandler) host m

/-- In front of the first turn. -/
def Turn.first (m : Machine) : Turn := { machine := m, handled := none, running := true }

/-- The loop from one turn to the next, for as long as it runs. -/
def ThreadStep (turn : Host → Machine → Except Abort Turn) (t : Turn) (host : Host)
    (t' : Turn) : Prop :=
  t.running = true ∧ turn host t.machine = .ok t'

end CRiscV
