/-
System calls: syscall.h and syscall.c.

Each call takes its arguments from the registers at the trap and leaves its result
in the saved a0.  The operating system below is a parameter: what it answers, and
what stands in storage that the emulator hands it without having set it.
-/
import CRiscV.Core.Cycle

namespace CRiscV

/-- The host during one turn of the thread loop. -/
structure Host where
  /-- The `uint8_t` of the successive calls of `read_ram_single`. -/
  residue : Nat → BitVec 8
  /-- The local buffer of `sys_write` and of `sys_fstat` before it is filled, and
  the block that `malloc` gives `sys_read`. -/
  buffer : Nat → BitVec 8
  /-- `read` on a descriptor, a buffer and its length: the buffer afterwards and
  the `ssize_t`.  The other calls are alike. -/
  read : Word → (Nat → BitVec 8) → Word → (Nat → BitVec 8) × BitVec 64
  write : Word → List (BitVec 8) → BitVec 64
  fstat : Word → (Nat → BitVec 8) → (Nat → BitVec 8) × Word
  close : Word → Word
  openFile : List (BitVec 8) → Word → Word → Word
  lseek : Word → Word → Word → BitVec 64

/-- `core->trap_regs[10] = ...`. -/
def Machine.setA0 (m : Machine) (v : Word) : Machine :=
  m.withCore { m.core with
    trapRegs := fun r => if r = 10 then v else m.core.trapRegs r }

def Machine.withBus (m : Machine) (bus : Bus) : Machine := { m with bus := bus }

/-- Record a call of the host. -/
def Machine.call (m : Machine) (c : HostCall) : Machine := { m with calls := m.calls ++ [c] }

def sysRead (host : Host) (m : Machine) (arg0 arg1 arg2 : Word) :
    Except Abort (Bool × Machine) := do
  let m := m.call (.read arg0 arg2)
  let (mem, k) := host.read arg0 host.buffer arg2
  let m := m.setA0 (k.setWidth 32)
  let (_, bus) ← busWriteMultiple m.bus (wide arg1) mem (wide arg2) .byte
  return (true, m.withBus bus)

def sysWrite (host : Host) (m : Machine) (arg0 arg1 arg2 : Word) :
    Except Abort (Bool × Machine) := do
  if ¬ arg0 ≤ 2 then .error .assertion
  else if ¬ arg2 < 256 then .error .assertion
  else
    let (_, buf, bus) ← busReadMultiple m.bus (wide arg1) host.buffer (wide arg2) .byte
    let bytes := (List.range arg2.toNat).map buf
    let m := (m.withBus bus).call (.write arg0 bytes)
    return (true, m.setA0 ((host.write arg0 bytes).setWidth 32))

/-- The size 112 is the guest's `struct stat`. -/
def sysFstat (host : Host) (m : Machine) (arg0 arg1 : Word) : Except Abort (Bool × Machine) := do
  let m := m.call (.fstat arg0)
  let (buf, r) := host.fstat arg0 host.buffer
  let m := m.setA0 r
  let (_, bus) ← busWriteMultiple m.bus (wide arg1) buf 112 .byte
  return (true, m.withBus bus)

def sysClose (host : Host) (m : Machine) (arg0 : Word) : Except Abort (Bool × Machine) :=
  if arg0 ≤ 2 then .ok (true, m.setA0 0)
  else .ok (true, (m.call (.close arg0)).setA0 (host.close arg0))

/-- `sys_open`, with a local buffer of 256 bytes. -/
def sysOpen (host : Host) (m : Machine) (arg0 arg1 arg2 : Word) :
    Except Abort (Bool × Machine) := do
  let (buf, bus) ← busReadString host.residue m.bus (wide arg0)
  if buf.length > 256 then .error .outOfBounds
  else
    let m := m.withBus bus
    if bus.status ≠ .ok then return (false, m)
    else
      -- the host reads the buffer up to its first zero
      let path := buf.takeWhile (· ≠ 0)
      return (true, (m.call (.openFile path arg1 arg2)).setA0 (host.openFile path arg1 arg2))

def sysLseek (host : Host) (m : Machine) (arg0 arg1 arg2 : Word) : Except Abort (Bool × Machine) :=
  .ok (true, (m.call (.lseek arg0 arg1 arg2)).setA0 ((host.lseek arg0 arg1 arg2).setWidth 32))

def sysBrk (m : Machine) (arg0 : Word) : Except Abort (Bool × Machine) := do
  let vaddr := arg0
  let requestedIncrease : Word :=
    if arg0 = 0 then 0 else ((arg0 - vaddr) + 0x100) &&& 0xffffff00
  if requestedIncrease > 0 then
    let (_, mmu) ← mmuAllocate m.bus.mmu (wide requestedIncrease) (mpermRaw ||| mpermWrite)
    return (true, (m.withBus { m.bus with mmu := mmu }).setA0 vaddr)
  else return (true, m.setA0 (m.bus.mmu.currVaddr.setWidth 32))

def handleSyscall (host : Host) (m : Machine) (n arg0 arg1 arg2 : Word) :
    Except Abort (Bool × Machine) :=
  if n = 93 then .ok (false, m)
  else if n = 94 then .ok (false, m)
  else if n = 214 then sysBrk m arg0
  else if n = 63 then sysRead host m arg0 arg1 arg2
  else if n = 64 then sysWrite host m arg0 arg1 arg2
  else if n = 1024 then sysOpen host m arg0 arg1 arg2
  else if n = 57 then sysClose host m arg0
  else if n = 62 then sysLseek host m arg0 arg1 arg2
  else if n = 80 then sysFstat host m arg0 arg1
  else .ok (false, m)

end CRiscV
