/-
The remaining stages of cpu.c and the cycle that runs them.
-/
import CRiscV.Core.Decode
import CRiscV.Core.Execute

namespace CRiscV

/-- `PREFETCH_SIZE`. -/
def prefetchSize : Size := 8

/-- The bytes of `instruction` and of the array `prefetch` behind it, which the
refill takes for one buffer. -/
def Core.prefetchBytes (core : Core) : Nat → BitVec 8 := fun i =>
  if i < 4 then Bytes.byteAt core.instruction i
  else if h : i / 4 - 1 < 7 then Bytes.byteAt (core.prefetch ⟨i / 4 - 1, h⟩) (i % 4)
  else 0

/-- Word `k` of that buffer. -/
def wordAt (buf : Nat → BitVec 8) (k : Nat) : Word := Bytes.ofBytes 32 4 fun i => buf (4 * k + i)

def fetch (m : Machine) : Except Abort Machine :=
  if m.core.prefetchCnt = 0 then do
    let (n, buf, bus) ←
      busReadMultiple m.bus (wide m.core.pc) m.core.prefetchBytes prefetchSize .word
    -- the branch causes a trap and then fails `assert(false)`
    if n ≠ prefetchSize then .error .assertion
    else
      return { m with
        core := { m.core with
          instruction := wordAt buf 0
          prefetch := fun k => wordAt buf (k + 1)
          prefetchCnt := 7 }
        bus := bus }
  else if h : 7 - m.core.prefetchCnt.toNat < 7 ∧ m.core.prefetchCnt.toNat ≤ 7 then
    .ok { m with
      core := { m.core with
        instruction := m.core.prefetch ⟨7 - m.core.prefetchCnt.toNat, h.1⟩
        prefetchCnt := m.core.prefetchCnt - 1 } }
  else .error .outOfBounds

/-- The cause of a failed load. -/
def loadCause : BusStatus → TrapCause
  | .readMisaligned => .loadAddrMisaligned
  | .addressNotFound => .loadAccessFault
  | _ => .loadPageFault

/-- The cause of a failed store. -/
def storeCause : BusStatus → TrapCause
  | .writeMisaligned => .storeAddrMisaligned
  | .addressNotFound => .storeAccessFault
  | _ => .storePageFault

def memoryAccess (residue : BitVec 8) (m : Machine) : Except Abort Machine :=
  let dec := m.core.decoded
  if dec.readMem then do
    let (r, bus) ← busReadSingle residue m.bus (wide dec.memOffset) dec.memAccessWidth
    let core := { m.core with aluOut := r }
    if bus.status ≠ .ok then
      return { m with core := causeTrap core (loadCause bus.status), bus := bus }
    else return { m with core := core, bus := bus }
  else if dec.writeMem then do
    let bus ← busWriteSingle m.bus (wide dec.memOffset) m.core.aluOut dec.memAccessWidth
    if bus.status ≠ .ok then
      return { m with core := causeTrap m.core (storeCause bus.status), bus := bus }
    else return { m with bus := bus }
  else .ok m

def writeback (core : Core) : Core :=
  let dec := core.decoded
  let core :=
    if dec.writeRd then { core with registers := regW core.registers dec.rd core.aluOut } else core
  if dec.isJump then { core with pc := dec.jumpTarget, prefetchCnt := 0 }
  else { core with pc := core.pc + 4 }

def trap (core : Core) : Except Abort Core :=
  match core.trapState with
  | .none => .error .assertion
  | .enter =>
      .ok { core with
        trapRegs := core.registers
        prefetchCnt := 0
        trapPc := core.pc
        csr := (csrReadWrite32 core.csr mepc core.pc).2
        state := .trap
        trapState := .handle }
  | .handle => .ok { core with trapState := .exit }
  | .exit =>
      let (pc, csr) := csrReadClear32 core.csr mepc 0
      .ok { core with
        registers := core.trapRegs
        pc := pc + 4
        csr := csr
        trapState := .none
        state := .fetch
        prefetchCnt := 0 }

/-- The macro `_stage` after the stage has run. -/
def Core.advance (next : CoreState) (core : Core) : Core :=
  { core with
    cycle := core.cycle + 1
    state := if core.state ≠ .trap then next else core.state }

def Machine.withCore (m : Machine) (core : Core) : Machine := { m with core := core }

def Machine.advance (next : CoreState) (m : Machine) : Machine :=
  m.withCore (m.core.advance next)

def coreCycle (residue : BitVec 8) (m : Machine) : Except Abort Machine :=
  match m.core.state with
  | .trap => do
      let core ← trap m.core
      return (m.withCore core).advance .fetch
  | .fetch => do
      let m ← fetch m
      return m.advance .decode
  | .decode => .ok ((m.withCore (decode m.core)).advance .execute)
  | .execute => do
      let core ← execute m.core
      return (m.withCore core).advance .memory
  | .memory => do
      let m ← memoryAccess residue m
      return m.advance .writeback
  | .writeback => .ok ((m.withCore (writeback m.core)).advance .fetch)

/-- Successive calls of `core_cycle`, one for each stack residue. -/
def coreCycles : List (BitVec 8) → Machine → Except Abort Machine
  | [], m => .ok m
  | residue :: rest, m => do
      let m ← coreCycle residue m
      coreCycles rest m

end CRiscV
