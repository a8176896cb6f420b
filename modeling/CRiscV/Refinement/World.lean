/-
The emulator as the platform of a user's program: memory behind its MMU, and system
calls that the host answers.
-/
import CRiscV.Emulator.Agreement
import CRiscV.Isa.Platform
import CRiscV.Refinement.Memory

namespace CRiscV

open Transition (Follows follows_ok follows_error follows_ite follows_bind follows_self returns_any)

/-! ## What a system call looks at -/

/-- Machines that a system call cannot tell apart. -/
structure Machine.SameSaved (m n : Machine) : Prop where
  bus : n.bus = m.bus
  calls : n.calls = m.calls
  saved : n.core.trapRegs = m.core.trapRegs

/-- The same, with the flag that a handler returns. -/
structure SameSavedFlag (r s : Bool × Machine) : Prop where
  flag : s.1 = r.1
  machine : r.2.SameSaved s.2

section Saved

variable {m n : Machine} (host : Host) (arg0 arg1 arg2 : Word)

theorem Machine.SameSaved.withBus (h : m.SameSaved n) (bus : Bus) :
    (m.withBus bus).SameSaved (n.withBus bus) := ⟨rfl, h.calls, h.saved⟩

theorem Machine.SameSaved.call (h : m.SameSaved n) (c : HostCall) :
    (m.call c).SameSaved (n.call c) := ⟨h.bus, congrArg (· ++ [c]) h.calls, h.saved⟩

theorem Machine.SameSaved.setA0 (h : m.SameSaved n) (v : Word) :
    (m.setA0 v).SameSaved (n.setA0 v) :=
  ⟨h.bus, h.calls, congrArg (fun regs r => if r = 10 then v else regs r) h.saved⟩

theorem sysRead_saved (h : m.SameSaved n) :
    Follows SameSavedFlag (sysRead host m arg0 arg1 arg2) (sysRead host n arg0 arg1 arg2) := by
  unfold sysRead
  simp only [Machine.setA0, Machine.withCore, Machine.call, h.bus]
  refine follows_bind (follows_self (returns_any _)) ?_
  rintro x _ ⟨rfl, -⟩
  exact follows_ok ⟨rfl, ((h.call _).setA0 _).withBus _⟩

theorem sysWrite_saved (h : m.SameSaved n) :
    Follows SameSavedFlag (sysWrite host m arg0 arg1 arg2) (sysWrite host n arg0 arg1 arg2) := by
  unfold sysWrite
  refine follows_ite Iff.rfl (follows_error _ _) (follows_ite Iff.rfl (follows_error _ _) ?_)
  rw [h.bus]
  refine follows_bind (follows_self (returns_any _)) ?_
  rintro x _ ⟨rfl, -⟩
  exact follows_ok ⟨rfl, ((h.withBus _).call _).setA0 _⟩

theorem sysFstat_saved (h : m.SameSaved n) :
    Follows SameSavedFlag (sysFstat host m arg0 arg1) (sysFstat host n arg0 arg1) := by
  unfold sysFstat
  simp only [Machine.setA0, Machine.withCore, Machine.call, h.bus]
  refine follows_bind (follows_self (returns_any _)) ?_
  rintro x _ ⟨rfl, -⟩
  exact follows_ok ⟨rfl, ((h.call _).setA0 _).withBus _⟩

theorem sysClose_saved (h : m.SameSaved n) :
    Follows SameSavedFlag (sysClose host m arg0) (sysClose host n arg0) :=
  follows_ite Iff.rfl (follows_ok ⟨rfl, h.setA0 0⟩) (follows_ok ⟨rfl, (h.call _).setA0 _⟩)

theorem sysOpen_saved (h : m.SameSaved n) :
    Follows SameSavedFlag (sysOpen host m arg0 arg1 arg2) (sysOpen host n arg0 arg1 arg2) := by
  unfold sysOpen
  rw [h.bus]
  refine follows_bind (follows_self (returns_any _)) ?_
  rintro x _ ⟨rfl, -⟩
  refine follows_ite Iff.rfl (follows_error _ _) (follows_ite Iff.rfl ?_ ?_)
  · exact follows_ok ⟨rfl, h.withBus _⟩
  · exact follows_ok ⟨rfl, ((h.withBus _).call _).setA0 _⟩

theorem sysBrk_saved (h : m.SameSaved n) :
    Follows SameSavedFlag (sysBrk m arg0) (sysBrk n arg0) := by
  unfold sysBrk
  rw [h.bus]
  refine follows_ite Iff.rfl ?_ (follows_ok ⟨rfl, h.setA0 _⟩)
  refine follows_bind (follows_self (returns_any _)) ?_
  rintro x _ ⟨rfl, -⟩
  exact follows_ok ⟨rfl, (h.withBus _).setA0 _⟩

theorem handleSyscall_saved (h : m.SameSaved n) (k : Word) :
    Follows SameSavedFlag (handleSyscall host m k arg0 arg1 arg2)
      (handleSyscall host n k arg0 arg1 arg2) := by
  have hnone : Follows SameSavedFlag (.ok (false, m) : Except Abort (Bool × Machine))
      (.ok (false, n) : Except Abort (Bool × Machine)) := follows_ok ⟨rfl, h⟩
  unfold handleSyscall
  refine follows_ite Iff.rfl hnone (follows_ite Iff.rfl hnone ?_)
  refine follows_ite Iff.rfl (sysBrk_saved arg0 h) ?_
  refine follows_ite Iff.rfl (sysRead_saved host arg0 arg1 arg2 h) ?_
  refine follows_ite Iff.rfl (sysWrite_saved host arg0 arg1 arg2 h) ?_
  refine follows_ite Iff.rfl (sysOpen_saved host arg0 arg1 arg2 h) ?_
  refine follows_ite Iff.rfl (sysClose_saved host arg0 h) ?_
  refine follows_ite Iff.rfl (follows_ok ⟨rfl, (h.call _).setA0 _⟩) ?_
  exact follows_ite Iff.rfl (sysFstat_saved host arg0 arg1 h) hnone

end Saved

/-! ## The world -/

/-- What a program can bring about outside its registers. -/
structure World where
  mmu : Mmu
  csr : DeviceState
  calls : List HostCall

namespace World

variable {w w' : World} {a : Vaddr} {n : Nat}

/-- The bus, free and with RAM ready. -/
def bus (w : World) : Bus := emulatorBus .ready w.csr false .ok w.mmu

/-- The same but for the outcome of the last access. -/
def Backs (w : World) (bus : Bus) : Prop :=
  ∃ status state, bus = emulatorBus .ready w.csr false status { w.mmu with state := state }

def Reads (w : World) (a : Vaddr) (n : Nat) : Prop :=
  w.bus.InRam a n ∧ ∀ i < n, (w.mmu.permFrom a i).Readable

def Writes (w : World) (a : Vaddr) (n : Nat) : Prop :=
  w.bus.InRam a n ∧ ∀ i < n, (w.mmu.permFrom a i).Writable

/-- The low `n` bytes of `v` have been written to `a`. -/
def store (w : World) (a : Vaddr) (n : Nat) (v : Word) : World :=
  { w with mmu := w.mmu.written (Bytes.byteAt v) a (BitVec.ofNat 64 n) }

/-- A machine in the trap handler, with nothing known of its core but the registers. -/
def trapped (w : World) (reg : Regs) : Machine :=
  { core := { cpuInitCore with registers := reg, trapRegs := reg }
    bus := w.bus
    calls := w.calls }

/-- What the handler makes of a system call.  A call that leaves the bus locked or RAM out
of order has no answer here. -/
def Answers (host : Host) (w : World) (reg : Regs) : Isa.Reply World → Prop
  | .resumed a0 w' => ∃ m', handleUmodeCall host (w.trapped reg) = .ok (true, m') ∧
      m'.core.trapRegs 10 = a0 ∧ m'.calls = w'.calls ∧
        ∃ status, m'.bus = emulatorBus .ready w'.csr false status w'.mmu
  | .halted w' => ∃ m', handleUmodeCall host (w.trapped reg) = .ok (false, m') ∧
      w' = { w with mmu := m'.bus.mmu, calls := m'.calls }

/-! ## Memory -/

theorem Writes.written_memory (h : w.Writes a n) (v : Word) :
    (w.store a n v).mmu.memory = Isa.storeBytes w.mmu.memory a n v := by
  have hsize : (BitVec.ofNat 64 n).toNat = n := by
    rw [BitVec.toNat_ofNat]
    have := h.1.addressed
    omega
  funext x
  exact Mmu.written_memory h.1 hsize x

/-! ## Accesses -/

section Backs

variable {bus : Bus} {aw : Width}

theorem Backs.free (h : w.Backs bus) : bus.mutex = false := by
  obtain ⟨status, state, rfl⟩ := h
  rfl

theorem Backs.memory (h : w.Backs bus) : w.mmu.SameMemory bus.mmu := by
  obtain ⟨status, state, rfl⟩ := h
  exact ⟨state, rfl⟩

theorem Backs.devices (h : w.Backs bus) : bus.mmioDevices = w.bus.mmioDevices := by
  obtain ⟨status, state, rfl⟩ := h
  rfl

theorem Backs.routes (h : w.Backs bus) {offs : Size} {i : Nat} {dev : Device}
    (hroute : w.bus.Routes offs i dev) : bus.Routes offs i dev := hroute.congr h.devices

theorem Backs.unmapped (h : w.Backs bus) {offs : Size} (hnone : w.bus.Unmapped offs) :
    bus.Unmapped offs := hnone.congr h.devices

theorem covers (h : w.bus.InRam a n) : (ramDevice .ready).covers (wide a) = true := by
  obtain ⟨i, dev, hroute, hdev⟩ := h.routed
  by_contra hram
  rw [Bool.not_eq_true] at hram
  cases hcsr : (csrMmioDevice .ready).covers (wide a) with
  | true =>
      obtain ⟨-, rfl⟩ := hroute.unique (emulatorBus_csr hram hcsr)
      cases hdev.1
  | false => exact hroute.mapped (emulatorBus_unmapped hram hcsr)

theorem Reads.accepts {n : Size} (h : w.Reads a n.toNat) (hn : n.toNat < 2 ^ 63) :
    w.mmu.Accepts a n mpermRead := (Mmu.accepts_read_iff h.1.sized hn).mpr ⟨h.1.held, h.2⟩

/-- A load that the platform lets through. -/
theorem Reads.load (h : w.Reads a aw.size) (hbacks : w.Backs bus) (residue : BitVec 8) :
    ∃ bus', busReadSingle residue bus (wide a) aw =
        .ok (Bytes.ofBytes 32 aw.size (w.mmu.byteFrom a), bus') ∧
      bus'.status = .ok ∧ w.Backs bus' := by
  obtain ⟨status, state, rfl⟩ := hbacks
  have haccepts : Mmu.Accepts { w.mmu with state := state } a aw.bytes mpermRead :=
    Reads.accepts (by rwa [aw.bytes_toNat]) aw.bytes_lt
  have hread : (ramDevice .ready).readSingle residue { w.mmu with state := state } a aw =
      .ok (Bytes.ofBytes 32 aw.size (w.mmu.byteFrom a), ramDevice .ready,
        { w.mmu with state := .ok }) := congrArg Except.ok (readRamSingle_accepted haccepts)
  have hroute : (emulatorBus .ready w.csr false status { w.mmu with state := state }).Routes
      (wide a) 0 (ramDevice .ready) := emulatorBus_ram (covers h.1)
  refine ⟨emulatorBus .ready w.csr false .ok { w.mmu with state := .ok }, ?_, rfl, .ok, .ok, rfl⟩
  rw [busReadSingle_routed rfl hroute, setWidth_wide]
  show (ramDevice .ready).readSingle residue { w.mmu with state := state } a aw >>= _ = _
  rw [hread]
  rfl

/-- A store that the platform lets through. -/
theorem Writes.store (h : w.Writes a aw.size) (hbacks : w.Backs bus) (v : Word) :
    ∃ bus', busWriteSingle bus (wide a) v aw = .ok bus' ∧ bus'.status = .ok ∧
      bus' = emulatorBus .ready w.csr false .ok (w.mmu.written (Bytes.byteAt v) a aw.bytes) := by
  obtain ⟨status, state, rfl⟩ := hbacks
  have haccepts : Mmu.Accepts { w.mmu with state := state } a aw.bytes mpermWrite :=
    (Mmu.accepts_write_iff h.1.sized aw.bytes_lt).mpr (by rw [aw.bytes_toNat]; exact ⟨h.1.held, h.2⟩)
  have hwrite : (ramDevice .ready).writeSingle { w.mmu with state := state } a v aw =
      .ok (ramDevice .ready, w.mmu.written (Bytes.byteAt v) a aw.bytes) :=
    writeRamSingle_accepted haccepts
  have hroute : (emulatorBus .ready w.csr false status { w.mmu with state := state }).Routes
      (wide a) 0 (ramDevice .ready) := emulatorBus_ram (covers h.1)
  refine ⟨_, ?_, rfl, rfl⟩
  rw [busWriteSingle_routed rfl hroute writable, setWidth_wide]
  show (ramDevice .ready).writeSingle { w.mmu with state := state } a v aw >>= _ = _
  rw [hwrite]
  rfl

end Backs

/-! ## System calls -/

theorem Answers.unique {host : Host} {reg : Regs} {r r' : Isa.Reply World}
    (h : w.Answers host reg r) (h' : w.Answers host reg r') : r' = r := by
  cases r with
  | resumed a0 v =>
      obtain ⟨m', hcall, rfl, hcalls, status, hbus⟩ := h
      cases r' with
      | resumed a0' v' =>
          obtain ⟨m'', hcall', rfl, hcalls', status', hbus'⟩ := h'
          rw [hcall] at hcall'
          cases hcall'
          rw [hbus] at hbus'
          cases v
          cases v'
          cases hbus'
          cases hcalls.symm.trans hcalls'
          rfl
      | halted v' =>
          obtain ⟨m'', hcall', -⟩ := h'
          rw [hcall] at hcall'
          cases hcall'
  | halted v =>
      obtain ⟨m', hcall, rfl⟩ := h
      cases r' with
      | resumed a0' v' =>
          obtain ⟨m'', hcall', -⟩ := h'
          rw [hcall] at hcall'
          cases hcall'
      | halted v' =>
          obtain ⟨m'', hcall', rfl⟩ := h'
          rw [hcall] at hcall'
          cases hcall'
          rfl

/-- The machine is in the handler, in this world and with these registers. -/
structure Calling (w : World) (reg : Regs) (m : Machine) : Prop where
  registers : m.core.registers = reg
  saved : m.core.trapRegs = reg
  backs : w.Backs m.bus
  calls : m.calls = w.calls

/-- The handler answers a machine as it would answer one with nothing else in its core. -/
theorem Calling.follows {reg : Regs} {m : Machine} (h : w.Calling reg m) (host : Host) :
    Follows (fun r s => s.1 = r.1 ∧ r.2.bus.Agrees s.2.bus ∧ s.2.calls = r.2.calls ∧
        s.2.core.trapRegs 10 = r.2.core.trapRegs 10 ∧ m.core.SavesA0 s.2.core)
      (handleUmodeCall host (w.trapped reg)) (handleUmodeCall host m) := by
  obtain ⟨status, state, hbus⟩ := h.backs
  have hmirrors : (w.trapped reg).Mirrors { w.trapped reg with bus := m.bus } := by
    refine ⟨.refl _, ?_, rfl⟩
    rw [hbus]
    exact .mk .ready .ready w.csr false .ok status w.mmu state (Or.inl rfl)
  have hsame : Machine.SameSaved { w.trapped reg with bus := m.bus } m :=
    ⟨rfl, h.calls, h.saved⟩
  intro r hr
  obtain ⟨s, hs, hrs⟩ := handleSyscall_mirrors host (reg 10) (reg 11) (reg 12) hmirrors (reg 17) r hr
  obtain ⟨t, ht, hst⟩ := handleSyscall_saved host (reg 10) (reg 11) (reg 12) hsame (reg 17) s hs
  rw [← h.registers] at ht
  refine ⟨t, ht, hst.flag.trans hrs.flag, ?_, hst.machine.calls.trans hrs.machine.calls, ?_,
    handleSyscall_saves host m _ _ _ _ t ht⟩
  · rw [hst.machine.bus]
    exact hrs.machine.bus
  · obtain ⟨words, cnt, hcore⟩ := hrs.machine.core
    rw [hst.machine.saved, hcore]

theorem Answers.resumes {host : Host} {reg : Regs} {m : Machine} {a0 : Word}
    (h : w.Answers host reg (.resumed a0 w')) (hm : w.Calling reg m) :
    ∃ m', handleUmodeCall host m = .ok (true, m') ∧ m.core.SavesA0 m'.core ∧
      m'.core.trapRegs 10 = a0 ∧ w'.Backs m'.bus ∧ m'.calls = w'.calls := by
  obtain ⟨m₀, hcall, rfl, hcalls, status, hbus⟩ := h
  obtain ⟨⟨running, m'⟩, hcall', hrunning, hagrees, hcalls', ha0, hsaves⟩ :=
    hm.follows host _ hcall
  simp only at hrunning hagrees hcalls' ha0 hsaves
  subst hrunning
  refine ⟨m', hcall', hsaves, ha0, ?_, hcalls'.trans hcalls⟩
  rw [hbus] at hagrees
  generalize hout : m'.bus = out at hagrees
  cases hagrees with
  | mk ram ram' csr mutex status status' mmu state hram =>
      cases hram with
      | inl heq => exact ⟨status', state, by rw [heq]⟩
      | inr heq => exact ⟨status', state, by rw [heq]⟩

theorem Answers.halts {host : Host} {reg : Regs} {m : Machine}
    (h : w.Answers host reg (.halted w')) (hm : w.Calling reg m) :
    ∃ m', handleUmodeCall host m = .ok (false, m') ∧ w'.mmu.SameMemory m'.bus.mmu ∧
      m'.calls = w'.calls := by
  obtain ⟨m₀, hcall, rfl⟩ := h
  obtain ⟨⟨running, m'⟩, hcall', hrunning, hagrees, hcalls', -⟩ := hm.follows host _ hcall
  simp only at hrunning hagrees hcalls'
  subst hrunning
  exact ⟨m', hcall', hagrees.memory, hcalls'⟩

end World

/-- The emulator, for the user's program. -/
def emulatorPlatform : Isa.Platform World Host where
  byte w := w.mmu.memory
  fetches w a := w.Reads a 32
  reads := World.Reads
  writes := World.Writes
  store := World.store
  calls host w reg := w.Answers host reg
  store_byte v h := World.Writes.written_memory h v
  calls_unique := World.Answers.unique

end CRiscV
