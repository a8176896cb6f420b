/-
Machines that differ in the prefetch buffer and in the outcome of the last bus
access at most: outside the fetch stage they take the same turns.
-/
import CRiscV.Bus.Agreement
import CRiscV.Core.Prefetch
import CRiscV.Emulator.Handler

namespace CRiscV

open Transition (Follows follows_ok follows_error follows_ite follows_bind)

structure Machine.Mirrors (m n : Machine) : Prop where
  core : m.core.SamePipe n.core
  bus : m.bus.Agrees n.bus
  calls : n.calls = m.calls

/-- The same, with the flag that a handler returns. -/
structure MirrorsFlag (r s : Bool × Machine) : Prop where
  flag : s.1 = r.1
  machine : r.2.Mirrors s.2

section Machine

variable {m n : Machine}

theorem Machine.Mirrors.withCore (h : m.Mirrors n) {core core' : Core}
    (hcore : core.SamePipe core') : (m.withCore core).Mirrors (n.withCore core') :=
  ⟨hcore, h.bus, h.calls⟩

theorem Machine.Mirrors.withBus (h : m.Mirrors n) {bus bus' : Bus} (hbus : bus.Agrees bus') :
    (m.withBus bus).Mirrors (n.withBus bus') :=
  ⟨h.core, hbus, h.calls⟩

theorem Machine.Mirrors.call (h : m.Mirrors n) (c : HostCall) : (m.call c).Mirrors (n.call c) := by
  refine ⟨h.core, h.bus, ?_⟩
  show n.calls ++ [c] = m.calls ++ [c]
  rw [h.calls]

theorem Machine.Mirrors.setA0 (h : m.Mirrors n) (v : Word) : (m.setA0 v).Mirrors (n.setA0 v) := by
  obtain ⟨words, cnt, hcore⟩ := h.core
  refine h.withCore ⟨words, cnt, ?_⟩
  rw [hcore]

theorem Machine.Mirrors.advance (h : m.Mirrors n) (next : CoreState) :
    (m.advance next).Mirrors (n.advance next) :=
  h.withCore (advance_samePipe h.core next)

theorem Machine.Mirrors.memory (h : m.Mirrors n) : m.bus.mmu.SameMemory n.bus.mmu :=
  h.bus.memory

end Machine

/-! ## Cycles -/

section Cycle

variable {m n : Machine} {residue : BitVec 8}

theorem memoryAccess_mirrors (h : m.Mirrors n) (residue : BitVec 8) :
    Follows Machine.Mirrors (memoryAccess residue m) (memoryAccess residue n) := by
  obtain ⟨words, cnt, hcore⟩ := h.core
  unfold memoryAccess
  rw [hcore]
  dsimp only
  refine follows_ite Iff.rfl ?_ (follows_ite Iff.rfl ?_ (follows_ok h))
  · refine follows_bind (busReadSingle_agrees h.bus residue _ _) ?_
    intro x y hxy
    obtain ⟨r, bus⟩ := x
    obtain ⟨r', bus'⟩ := y
    obtain ⟨hvalue, hstatus, hagrees⟩ := hxy
    simp only at hvalue hstatus hagrees
    subst hvalue
    rw [hstatus]
    refine follows_ite Iff.rfl (follows_ok ⟨?_, hagrees, h.calls⟩)
      (follows_ok ⟨?_, hagrees, h.calls⟩)
    · exact causeTrap_samePipe ⟨words, cnt, rfl⟩ _
    · exact ⟨words, cnt, rfl⟩
  · refine follows_bind (busWriteSingle_agrees h.bus _ _ _) ?_
    intro bus bus' hbus
    obtain ⟨hstatus, hagrees⟩ := hbus
    rw [hstatus]
    refine follows_ite Iff.rfl (follows_ok ⟨?_, hagrees, h.calls⟩)
      (follows_ok ⟨?_, hagrees, h.calls⟩)
    · exact causeTrap_samePipe ⟨words, cnt, rfl⟩ _
    · exact ⟨words, cnt, rfl⟩

theorem coreCycle_mirrors (h : m.Mirrors n) (hstate : m.core.state ≠ .fetch)
    (residue : BitVec 8) :
    Follows Machine.Mirrors (coreCycle residue m) (coreCycle residue n) := by
  obtain ⟨words, cnt, hcore⟩ := h.core
  have hstate' : n.core.state = m.core.state := by
    rw [hcore]
  unfold coreCycle
  rw [hstate']
  cases hm : m.core.state with
  | fetch => exact absurd hm hstate
  | trap =>
      refine follows_bind (trap_samePipe h.core) fun core core' hpipe => ?_
      exact follows_ok ((h.withCore hpipe).advance .fetch)
  | decode => exact follows_ok ((h.withCore (decode_samePipe h.core)).advance .execute)
  | execute =>
      refine follows_bind (execute_samePipe h.core) fun core core' hpipe => ?_
      exact follows_ok ((h.withCore hpipe).advance .memory)
  | memory =>
      refine follows_bind (memoryAccess_mirrors h residue) fun m' n' h' => ?_
      exact follows_ok (h'.advance .writeback)
  | writeback => exact follows_ok ((h.withCore (writeback_samePipe h.core)).advance .fetch)

end Cycle

/-! ## System calls -/

theorem mmuSetperm_flag (mmu : Mmu) (state : MmuState) (vaddr : Vaddr) (size : Size)
    (perm : Perm) :
    Follows (fun x y => y = { x with state := state }) (mmuSetperm mmu vaddr size perm)
      (mmuSetperm { mmu with state := state } vaddr size perm) :=
  follows_ite Iff.rfl (follows_error _ _)
    (follows_ite Iff.rfl (follows_error _ _) (follows_ok rfl))

/-- Allocation does not look at the state flag. -/
theorem mmuAllocate_flag (mmu : Mmu) (state : MmuState) (size : Size) (perm : Perm) :
    Follows (fun x y => y.2 = { x.2 with state := state }) (mmuAllocate mmu size perm)
      (mmuAllocate { mmu with state := state } size perm) := by
  unfold mmuAllocate
  refine follows_ite Iff.rfl (follows_ok rfl) (follows_ite Iff.rfl (follows_error _ _) ?_)
  exact follows_bind (mmuSetperm_flag _ state _ size perm) fun _ _ hmmu => follows_ok hmmu

section Syscall

variable {m n : Machine} (host : Host) (arg0 arg1 arg2 : Word)

theorem sysRead_mirrors (h : m.Mirrors n) :
    Follows MirrorsFlag (sysRead host m arg0 arg1 arg2) (sysRead host n arg0 arg1 arg2) := by
  unfold sysRead
  refine follows_bind (busWriteMultiple_agrees h.bus _ _ _ _) ?_
  intro x y hxy
  exact follows_ok ⟨rfl, ((h.call _).setA0 _).withBus hxy.agrees⟩

theorem sysWrite_mirrors (h : m.Mirrors n) :
    Follows MirrorsFlag (sysWrite host m arg0 arg1 arg2) (sysWrite host n arg0 arg1 arg2) := by
  unfold sysWrite
  refine follows_ite Iff.rfl (follows_error _ _) (follows_ite Iff.rfl (follows_error _ _) ?_)
  refine follows_bind (busReadMultiple_agrees h.bus _ _ _ _) ?_
  intro x y hxy
  obtain ⟨k, buf, bus⟩ := x
  obtain ⟨k', buf', bus'⟩ := y
  obtain ⟨-, hvalue, -, hagrees⟩ := hxy
  simp only at hvalue hagrees
  subst hvalue
  exact follows_ok ⟨rfl, ((h.withBus hagrees).call _).setA0 _⟩

theorem sysFstat_mirrors (h : m.Mirrors n) :
    Follows MirrorsFlag (sysFstat host m arg0 arg1) (sysFstat host n arg0 arg1) := by
  unfold sysFstat
  refine follows_bind (busWriteMultiple_agrees h.bus _ _ _ _) ?_
  intro x y hxy
  exact follows_ok ⟨rfl, ((h.call _).setA0 _).withBus hxy.agrees⟩

theorem sysClose_mirrors (h : m.Mirrors n) :
    Follows MirrorsFlag (sysClose host m arg0) (sysClose host n arg0) :=
  follows_ite Iff.rfl (follows_ok ⟨rfl, h.setA0 0⟩) (follows_ok ⟨rfl, (h.call _).setA0 _⟩)

theorem sysOpen_mirrors (h : m.Mirrors n) :
    Follows MirrorsFlag (sysOpen host m arg0 arg1 arg2) (sysOpen host n arg0 arg1 arg2) := by
  unfold sysOpen
  refine follows_bind (busReadString_agrees host.residue _ h.bus) ?_
  intro x y hxy
  obtain ⟨buf, bus⟩ := x
  obtain ⟨buf', bus'⟩ := y
  obtain ⟨hvalue, hstatus, hagrees⟩ := hxy
  simp only at hvalue hstatus hagrees
  subst hvalue
  refine follows_ite Iff.rfl (follows_error _ _) (follows_ite ?_ (follows_ok ⟨rfl, ?_⟩) ?_)
  · show bus.status ≠ .ok ↔ bus'.status ≠ .ok
    rw [hstatus]
  · exact h.withBus hagrees
  · exact follows_ok ⟨rfl, ((h.withBus hagrees).call _).setA0 _⟩

theorem sysLseek_mirrors (h : m.Mirrors n) :
    Follows MirrorsFlag (sysLseek host m arg0 arg1 arg2) (sysLseek host n arg0 arg1 arg2) :=
  follows_ok ⟨rfl, (h.call _).setA0 _⟩

theorem sysBrk_mirrors (h : m.Mirrors n) :
    Follows MirrorsFlag (sysBrk m arg0) (sysBrk n arg0) := by
  obtain ⟨mcore, mbus, mcalls⟩ := m
  obtain ⟨ncore, nbus, ncalls⟩ := n
  have hbus : mbus.Agrees nbus := h.bus
  cases hbus with
  | mk ram ram' csr mutex status status' mmu state hram =>
    unfold sysBrk
    refine follows_ite Iff.rfl ?_ (follows_ok ⟨rfl, h.setA0 _⟩)
    refine follows_bind (mmuAllocate_flag mmu state _ _) ?_
    intro x y hmmu
    refine follows_ok ⟨rfl, (h.withBus ?_).setA0 _⟩
    rw [hmmu]
    exact .mk ram ram' csr mutex status status' x.2 state hram

theorem handleSyscall_mirrors (h : m.Mirrors n) (k : Word) :
    Follows MirrorsFlag (handleSyscall host m k arg0 arg1 arg2)
      (handleSyscall host n k arg0 arg1 arg2) := by
  have hnone : Follows MirrorsFlag (.ok (false, m) : Except Abort (Bool × Machine))
      (.ok (false, n) : Except Abort (Bool × Machine)) := follows_ok ⟨rfl, h⟩
  unfold handleSyscall
  refine follows_ite Iff.rfl hnone (follows_ite Iff.rfl hnone ?_)
  refine follows_ite Iff.rfl (sysBrk_mirrors arg0 h) ?_
  refine follows_ite Iff.rfl (sysRead_mirrors host arg0 arg1 arg2 h) ?_
  refine follows_ite Iff.rfl (sysWrite_mirrors host arg0 arg1 arg2 h) ?_
  refine follows_ite Iff.rfl (sysOpen_mirrors host arg0 arg1 arg2 h) ?_
  refine follows_ite Iff.rfl (sysClose_mirrors host arg0 h) ?_
  refine follows_ite Iff.rfl (sysLseek_mirrors host arg0 arg1 arg2 h) ?_
  exact follows_ite Iff.rfl (sysFstat_mirrors host arg0 arg1 h) hnone

end Syscall

/-! ## Turns -/

theorem trapHandler_mirrors {m n : Machine} (host : Host) (h : m.Mirrors n) :
    Follows MirrorsFlag (trapHandler host m) (trapHandler host n) := by
  obtain ⟨words, cnt, hcore⟩ := h.core
  obtain ⟨ncore, nbus, ncalls⟩ := n
  simp only at hcore
  subst hcore
  have hcsr : ∀ csr, (m.withCore { m.core with csr := csr }).Mirrors
      { core := { m.core with csr := csr, prefetch := words, prefetchCnt := cnt }
        bus := nbus
        calls := ncalls } := fun csr => ⟨⟨words, cnt, rfl⟩, h.bus, h.calls⟩
  unfold trapHandler
  refine follows_ite Iff.rfl ?_ (follows_ok ⟨rfl, hcsr _⟩)
  exact handleSyscall_mirrors host _ _ _ (hcsr _) _

/-- What one turn of two loops has in common. -/
structure Turn.Mirrors (t u : Turn) : Prop where
  machine : t.machine.Mirrors u.machine
  running : u.running = t.running

theorem handleTrap_mirrors {m n : Machine} (host : Host) (h : m.Mirrors n) :
    Follows Turn.Mirrors (handleTrap (some trapHandler) host m)
      (handleTrap (some trapHandler) host n) := by
  obtain ⟨words, cnt, hcore⟩ := h.core
  have hstate : n.core.state = m.core.state := by
    rw [hcore]
  have htrap : n.core.trapState = m.core.trapState := by
    rw [hcore]
  unfold handleTrap
  rw [hstate, htrap]
  refine follows_ite Iff.rfl ?_ (follows_ok ⟨h, rfl⟩)
  refine follows_bind (trapHandler_mirrors host h) fun x y hxy => ?_
  exact follows_ok ⟨hxy.machine, hxy.flag⟩

end CRiscV
