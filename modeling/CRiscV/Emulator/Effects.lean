/-
What one turn does to the memory, by what it asks for: the store at hand, the block that a
system call hands to the guest, or the allocation of `sys_brk`.
-/
import CRiscV.Core.Stages
import CRiscV.Emulator.Transfers
import CRiscV.Mmu.Run

namespace CRiscV

open Transition (Returns returns_ok returns_error returns_ite returns_bind)

/-- Bytes, and where they are to be written. -/
structure Transfer where
  addr : Vaddr
  count : Size
  src : Nat → BitVec 8

def Transfer.range (x : Transfer) : Set Nat :=
  Set.Ico x.addr.toNat (x.addr.toNat + x.count.toNat)

/-- The store that the memory stage is about to make. -/
def Machine.storing (m : Machine) : Option Transfer :=
  if m.core.state = .memory ∧ m.core.decoded.readMem = false ∧ m.core.decoded.writeMem = true then
    some
      { addr := m.core.decoded.memOffset
        count := m.core.decoded.memAccessWidth.bytes
        src := Bytes.byteAt m.core.aluOut }
  else none

/-- The block that a call with these registers puts into the guest's memory. -/
def Regs.received (regs : Regs) (host : Host) : Option Transfer :=
  if regs 17 = 63 then
    some
      { addr := regs 11
        count := wide (regs 12)
        src := (host.read (regs 10) host.buffer (regs 12)).1 }
  else if regs 17 = 80 then
    some { addr := regs 11, count := 112, src := (host.fstat (regs 10) host.buffer).1 }
  else none

/-- The same of a machine in the trap handler. -/
def Machine.receiving (host : Host) (m : Machine) : Option Transfer :=
  if (csrReadClear32 m.core.csr mcause 0).1 = TrapCause.envCallUmode.code then
    m.core.registers.received host
  else none

/-- The memory is as it was, but for this transfer if there is one and it is accepted. -/
def Mmu.Moves (mmu : Mmu) (x : Option Transfer) (mmu' : Mmu) : Prop :=
  mmu.SameMemory mmu' ∨ ∃ y, x = some y ∧ y.count.toNat < 2 ^ 63 ∧
    mmu.Accepts y.addr y.count mpermWrite ∧ (mmu.written y.src y.addr y.count).SameMemory mmu'

section Bus

variable {bus : Bus} {a : Vaddr} {src : Nat → BitVec 8} {count : Size}

theorem Mmu.Moves.refl (mmu : Mmu) (x : Option Transfer) : mmu.Moves x mmu := Or.inl (.refl mmu)

theorem Mmu.Moves.extent {mmu mmu' : Mmu} {x : Option Transfer} (h : mmu.Moves x mmu') :
    mmu'.base = mmu.base ∧ mmu'.size = mmu.size := by
  rcases h with ⟨state, rfl⟩ | ⟨y, -, -, -, state, rfl⟩
  · exact ⟨rfl, rfl⟩
  · exact ⟨rfl, rfl⟩

theorem mmuWriteFrom_moves {mmu : Mmu} (hcount : count.toNat < 2 ^ 63) :
    Returns (fun r => mmu.Moves (some ⟨a, count, src⟩) r.2) (mmuWriteFrom mmu src a count) := by
  intro r hr
  by_cases haccepts : mmu.Accepts a count mpermWrite
  · rw [mmuWriteFrom_accepted hcount haccepts] at hr
    cases hr
    exact Or.inr ⟨_, rfl, hcount, haccepts, .refl _⟩
  · obtain ⟨state, -, hrefused⟩ := @mmuWriteFrom_refused mmu src a count hcount haccepts
    rw [hrefused] at hr
    cases hr
    exact Or.inl ⟨state, rfl⟩

theorem Device.write_moves (dev : Device) {mmu : Mmu} (hcount : count.toNat < 2 ^ 63) :
    Returns (fun r => mmu.Moves (some ⟨a, count, src⟩) r.2.2) (dev.write mmu a src count .byte) := by
  have hbytes : count * widthMult .byte = count := BitVec.mul_one count
  unfold Device.write
  cases dev.driver with
  | ram =>
      refine returns_bind (Q := fun r => mmu.Moves (some ⟨a, count, src⟩) r.2) ?_ fun _ h =>
        returns_ite (returns_ok h) (returns_ok h)
      rw [hbytes]
      exact mmuWriteFrom_moves hcount
  | csr => exact returns_error _
  | other handlers =>
      dsimp only
      cases handlers.write with
      | none => exact returns_error _
      | some f => exact returns_ok (.refl _ _)

theorem busWriteMultiple_moves (hcount : count.toNat < 2 ^ 63) :
    Returns (fun r => bus.mmu.Moves (some ⟨a, count, src⟩) r.2.mmu)
      (busWriteMultiple bus (wide a) src count .byte) := by
  intro r hr
  obtain ⟨locked, hlock, -⟩ := Transition.exists_of_bind_ok hr
  obtain ⟨hfree, -⟩ := busLock_eq_ok hlock
  rcases bus.routes_or_unmapped (wide a) with ⟨i, dev, hroute⟩ | hnone
  · rw [busWriteMultiple_routed hfree hroute, setWidth_wide] at hr
    obtain ⟨-, hr⟩ := Transition.of_ite_error hr
    obtain ⟨-, hr⟩ := Transition.of_ite_error hr
    obtain ⟨x, hx, hr⟩ := Transition.exists_of_bind_ok hr
    have hmoves := dev.write_moves hcount x hx
    split_ifs at hr
    · cases hr
      exact hmoves
    · cases hr
      exact hmoves
  · rw [busWriteMultiple_unmapped hfree hnone] at hr
    cases hr
    exact .refl _ _

end Bus

/-! ## The core -/

section Core

variable {m m' : Machine} {residue : BitVec 8}

theorem memoryAccess_moves (hstate : m.core.state = .memory) :
    Returns (fun m' => m.bus.mmu.Moves m.storing m'.bus.mmu) (memoryAccess residue m) := by
  unfold memoryAccess
  by_cases hread : m.core.decoded.readMem = true
  · rw [if_pos hread]
    refine returns_bind (Q := fun r => m.bus.mmu.Moves m.storing r.2.mmu) ?_ fun _ h =>
      returns_ite (returns_ok h) (returns_ok h)
    exact fun r hr => Or.inl (busReadSingle_frame hr).memory
  · rw [if_neg hread]
    by_cases hwrite : m.core.decoded.writeMem = true
    · rw [if_pos hwrite]
      refine returns_bind (Q := fun bus => m.bus.mmu.Moves m.storing bus.mmu) ?_ fun _ h =>
        returns_ite (returns_ok h) (returns_ok h)
      intro bus hbus
      have hstoring : m.storing = some _ :=
        if_pos ⟨hstate, Bool.eq_false_of_not_eq_true hread, hwrite⟩
      rcases busWriteSingle_mmu hbus with hsame | ⟨hstores, hwritten⟩
      · exact Or.inl hsame
      · refine Or.inr ⟨_, hstoring, Width.bytes_lt _, hstores.accepts, ?_⟩
        rw [hwritten]
        exact .refl _
    · rw [if_neg hwrite]
      exact returns_ok (.refl _ _)

theorem coreCycle_moves (h : coreCycle residue m = .ok m') :
    m.bus.mmu.Moves m.storing m'.bus.mmu := by
  cases hstate : m.core.state with
  | memory =>
      rw [coreCycle_memory_eq hstate] at h
      obtain ⟨m₁, hmemory, h⟩ := Transition.exists_of_bind_ok h
      cases h
      exact memoryAccess_moves hstate m₁ hmemory
  | fetch | decode | execute | writeback | trap =>
      cases coreCycle_cases h with
      | fetched _ hfetched => exact Or.inl hfetched.memory
      | decoded _ _ hbus | executed _ _ hbus =>
          rw [hbus]
          exact .refl _ _
      | accessed haccessed => exact absurd (hstate.symm.trans haccessed) nofun
      | written | entered | exiting | resumed => exact .refl _ _

/-- The handler is called on a core that has just entered its trap. -/
theorem coreCycle_entered (h : coreCycle residue m = .ok m') (htrap : m'.core.state = .trap)
    (hhandle : m'.core.trapState = .handle) :
    m.core.state = .trap ∧ m.core.trapState = .enter ∧ m' = m.entered := by
  cases coreCycle_cases h with
  | fetched _ hfetched =>
      rw [hfetched.core] at htrap
      cases htrap
  | decoded _ hout | executed _ hout | accessed _ hout =>
      cases hout with
      | done => cases htrap
      | trapped => cases hhandle
  | written => cases htrap
  | entered hstate henter => exact ⟨hstate, henter, rfl⟩
  | exiting => cases hhandle
  | resumed => cases hhandle

end Core

/-! ## System calls -/

section Call

variable {m : Machine} (host : Host) (arg0 arg1 arg2 : Word)

theorem wide_lt_block (n : Word) : (wide n).toNat < 2 ^ 63 := by
  have hlt := wide_lt n
  omega

theorem sysRead_moves :
    Returns (fun r => m.bus.mmu.Moves
        (some ⟨arg1, wide arg2, (host.read arg0 host.buffer arg2).1⟩) r.2.bus.mmu)
      (sysRead host m arg0 arg1 arg2) :=
  returns_bind (busWriteMultiple_moves (wide_lt_block arg2)) fun _ h => returns_ok h

theorem sysFstat_moves :
    Returns (fun r => m.bus.mmu.Moves (some ⟨arg1, 112, (host.fstat arg0 host.buffer).1⟩)
        r.2.bus.mmu)
      (sysFstat host m arg0 arg1) :=
  returns_bind (busWriteMultiple_moves (by decide)) fun _ h => returns_ok h

theorem busReadString_memory {residue : Nat → BitVec 8} {bus : Bus} {offs : Size} :
    Returns (fun r => bus.mmu.SameMemory r.2.mmu) (busReadString residue bus offs) := by
  suffices hloop : ∀ fuel i (b : Bus), bus.mmu.SameMemory b.mmu →
      Returns (fun r => bus.mmu.SameMemory r.2.mmu) (busReadStringLoop residue offs fuel i b) from
    hloop _ _ bus (.refl _)
  intro fuel
  induction fuel with
  | zero => exact fun _ _ h => returns_ok h
  | succ fuel ih =>
      intro i b h
      refine returns_bind (fun x hx => h.trans (busReadSingle_frame hx).memory) fun x hx =>
        returns_ite ?_ (returns_ok hx)
      exact returns_bind (ih _ _ hx) fun y hy => returns_ok hy

/-- The other calls leave the memory alone, but for a `brk` that asks for memory. -/
theorem handleSyscall_keeps {n : Word} (hread : n ≠ 63) (hfstat : n ≠ 80)
    (hbrk : ¬ (n = 214 ∧ arg0 ≠ 0)) :
    Returns (fun r => m.bus.mmu.SameMemory r.2.bus.mmu)
      (handleSyscall host m n arg0 arg1 arg2) := by
  have hsame : ∀ {b : Bool} {m' : Machine}, m'.bus = m.bus →
      Returns (fun r => m.bus.mmu.SameMemory r.2.bus.mmu)
        (.ok (b, m') : Except Abort (Bool × Machine)) := by
    intro b m' hbus
    refine returns_ok ?_
    rw [hbus]
    exact .refl _
  unfold handleSyscall
  rw [if_neg hread, if_neg hfstat]
  refine returns_ite (hsame rfl) (returns_ite (hsame rfl) ?_)
  by_cases hn : n = 214
  · have hzero : arg0 = 0 := by
      by_contra hne
      exact hbrk ⟨hn, hne⟩
    rw [if_pos hn, sysBrk, if_pos hzero]
    exact hsame rfl
  · rw [if_neg hn]
    refine returns_ite ?_ (returns_ite ?_ (returns_ite ?_ (returns_ite (hsame rfl) (hsame rfl))))
    · refine returns_ite (returns_error _) (returns_ite (returns_error _) ?_)
      exact returns_bind (fun _ h => (busReadMultiple_frame h).memory) fun _ h => returns_ok h
    · refine returns_bind busReadString_memory fun _ h =>
        returns_ite (returns_error _) (returns_ite (returns_ok h) (returns_ok h))
    · exact returns_ite (hsame rfl) (hsame rfl)

/-- What a call hands over is the transfer of its registers. -/
theorem handleUmodeCall_moves
    (hbrk : ¬ (m.core.registers 17 = 214 ∧ m.core.registers 10 ≠ 0)) :
    Returns (fun r => m.bus.mmu.Moves (m.core.registers.received host) r.2.bus.mmu)
      (handleUmodeCall host m) := by
  unfold Regs.received
  by_cases hread : m.core.registers 17 = 63
  · rw [if_pos hread]
    show Returns _ (handleSyscall host m (m.core.registers 17) _ _ _)
    rw [hread]
    exact sysRead_moves host _ _ _
  · rw [if_neg hread]
    by_cases hfstat : m.core.registers 17 = 80
    · rw [if_pos hfstat]
      show Returns _ (handleSyscall host m (m.core.registers 17) _ _ _)
      rw [hfstat]
      exact sysFstat_moves host _ _
    · intro r hr
      exact Or.inl (handleSyscall_keeps host _ _ _ hread hfstat hbrk r hr)

/-- A `brk` that asks for memory is an allocation of one size. -/
theorem sysBrk_allocates (hne : arg0 ≠ 0) :
    Returns (fun r => ∃ addr,
        mmuAllocate m.bus.mmu 0x100 (mpermRaw ||| mpermWrite) = .ok (addr, r.2.bus.mmu))
      (sysBrk m arg0) := by
  have hincrease : ((arg0 - arg0) + 0x100) &&& 0xffffff00 = (0x100 : Word) := by
    rw [BitVec.sub_self]
    decide
  unfold sysBrk
  dsimp only
  rw [if_neg hne, hincrease]
  refine returns_bind (Q := fun x =>
    mmuAllocate m.bus.mmu 0x100 (mpermRaw ||| mpermWrite) = .ok x) (fun _ h => h) ?_
  exact fun x hx => returns_ok ⟨x.1, hx⟩

theorem handleUmodeCall_allocates (hbrk : m.core.registers 17 = 214 ∧ m.core.registers 10 ≠ 0) :
    Returns (fun r => ∃ addr,
        mmuAllocate m.bus.mmu 0x100 (mpermRaw ||| mpermWrite) = .ok (addr, r.2.bus.mmu))
      (handleUmodeCall host m) := by
  show Returns _ (handleSyscall host m (m.core.registers 17) _ _ _)
  rw [hbrk.1]
  exact sysBrk_allocates _ hbrk.2

/-- The machine with other CSRs. -/
def Machine.withCsr (m : Machine) (csr : Csr) : Machine :=
  m.withCore { m.core with csr := csr }

/-- The handler reads two CSRs and hands a call over. -/
theorem trapHandler_call (m : Machine) :
    ∃ csr, trapHandler host m =
      if (csrReadClear32 m.core.csr mcause 0).1 = TrapCause.envCallUmode.code then
        handleUmodeCall host (m.withCsr csr)
      else .ok (false, m.withCsr csr) :=
  ⟨_, rfl⟩

end Call

/-! ## One turn -/

/-- What a turn does to the memory. -/
inductive Turn.Effect (t : Turn) (host : Host) (t' : Turn) : Prop
  | moved (x : Option Transfer)
      (asked : x = t.machine.storing ∨ ∃ m, t'.handled = some m ∧ x = m.receiving host)
      (moves : t.machine.bus.mmu.Moves x t'.machine.bus.mmu) : Effect t host t'
  | allocated (m : Machine) (addr : Vaddr) (handled : t'.handled = some m)
      (allocates : m.Allocates) (call : mmuAllocate t.machine.bus.mmu 0x100
        (mpermRaw ||| mpermWrite) = .ok (addr, t'.machine.bus.mmu)) : Effect t host t'

theorem ThreadStep.effect {t t' : Turn} {host : Host} (h : ThreadStep emulatorTurn t host t') :
    t.Effect host t' := by
  obtain ⟨m, hcycle, hturn⟩ := h.cycle
  by_cases hhandle : m.core.state = .trap ∧ m.core.trapState = .handle
  · obtain ⟨-, -, rfl⟩ := coreCycle_entered hcycle hhandle.1 hhandle.2
    unfold handleTrap at hturn
    rw [if_pos hhandle] at hturn
    obtain ⟨r, hr, hturn⟩ := Transition.exists_of_bind_ok hturn
    cases hturn
    obtain ⟨csr, hcall⟩ := trapHandler_call host t.machine.entered
    rw [hcall] at hr
    by_cases hcause : (csrReadClear32 t.machine.entered.core.csr mcause 0).1 =
        TrapCause.envCallUmode.code
    · rw [if_pos hcause] at hr
      by_cases hbrk : t.machine.entered.core.registers 17 = 214 ∧
          t.machine.entered.core.registers 10 ≠ 0
      · obtain ⟨addr, hallocate⟩ :=
          handleUmodeCall_allocates (m := t.machine.entered.withCsr csr) host hbrk r hr
        exact .allocated _ addr rfl ⟨hcause, hbrk⟩ hallocate
      · refine .moved (t.machine.entered.core.registers.received host)
          (Or.inr ⟨_, rfl, (if_pos hcause).symm⟩) ?_
        exact handleUmodeCall_moves (m := t.machine.entered.withCsr csr) host hbrk r hr
    · rw [if_neg hcause] at hr
      cases hr
      exact .moved _ (Or.inl rfl) (.refl _ _)
  · rw [handleTrap_quiet fun htrap hstate => hhandle ⟨htrap, hstate⟩] at hturn
    cases hturn
    exact .moved _ (Or.inl rfl) (coreCycle_moves hcycle)

/-- A turn leaves the memory where it is. -/
theorem ThreadStep.extent {t t' : Turn} {host : Host} (h : ThreadStep emulatorTurn t host t') :
    t'.machine.bus.mmu.base = t.machine.bus.mmu.base ∧
      t'.machine.bus.mmu.size = t.machine.bus.mmu.size := by
  cases h.effect with
  | moved x _ hmoves => exact hmoves.extent
  | allocated _ addr _ _ hcall =>
      rcases mmuAllocate_cases hcall with ⟨-, hsame⟩ | ⟨-, -, -, -, hgrown⟩
      · rw [hsame]
        exact ⟨rfl, rfl⟩
      · rw [hgrown]
        exact ⟨rfl, rfl⟩

end CRiscV
