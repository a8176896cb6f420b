/-
What a turn does to the memory: reads and writes of the MMU, which keep whatever
every single transfer keeps, and the allocation of `sys_brk`.
-/
import CRiscV.Bus.Run
import CRiscV.Core.Pipeline
import CRiscV.Emulator.Handler
import CRiscV.Mmu.Segment

namespace CRiscV

open Transition (Returns returns_ok returns_error returns_ite returns_bind)

/-- What no transfer destroys: a change of the state flag, and an accepted write of an
object that the host can hold. -/
structure Mmu.Stable (I : Mmu → Prop) : Prop where
  flag : ∀ {mmu : Mmu} (state : MmuState), I mmu → I { mmu with state := state }
  written : ∀ {mmu : Mmu} (src : Nat → BitVec 8) {vaddr : Vaddr} {n : Size},
    n.toNat < 2 ^ 63 → mmu.Accepts vaddr n mpermWrite → I mmu → I (mmu.written src vaddr n)

/-! ## The bus -/

section Bus

variable {I : Mmu → Prop} {bus : Bus} {mmu mmu' : Mmu} {offs : Size} {aw : Width}

theorem Mmu.Stable.same (hI : Mmu.Stable I) (hmmu : I mmu) (h : mmu.SameMemory mmu') : I mmu' := by
  obtain ⟨state, rfl⟩ := h
  exact hI.flag state hmmu

theorem Mmu.Stable.writeFrom (hI : Mmu.Stable I) (hmmu : I mmu) (src : Nat → BitVec 8)
    (vaddr : Vaddr) {n : Size} (hn : n.toNat < 2 ^ 63) :
    Returns (fun r => I r.2) (mmuWriteFrom mmu src vaddr n) := by
  intro r hr
  by_cases haccepts : mmu.Accepts vaddr n mpermWrite
  · rw [mmuWriteFrom_accepted hn haccepts] at hr
    cases hr
    exact hI.written src hn haccepts hmmu
  · obtain ⟨state, -, hrefused⟩ := @mmuWriteFrom_refused mmu src vaddr n hn haccepts
    rw [hrefused] at hr
    cases hr
    exact hI.flag state hmmu

theorem Mmu.Stable.writeRam (hI : Mmu.Stable I) (hmmu : I mmu) (ram : Device) (a : Word)
    (buf : Nat → BitVec 8) {count : Size} (hcount : (count * widthMult aw).toNat < 2 ^ 63) :
    Returns (fun r => I r.2.2) (writeRam ram mmu a buf count aw) :=
  returns_bind (hI.writeFrom hmmu buf a hcount) fun _ hm =>
    returns_ite (returns_ok hm) (returns_ok hm)

theorem Mmu.Stable.write (hI : Mmu.Stable I) (hmmu : I mmu) (dev : Device) (a : Word)
    (src : Nat → BitVec 8) {count : Size} (hcount : (count * widthMult aw).toNat < 2 ^ 63) :
    Returns (fun r => I r.2.2) (dev.write mmu a src count aw) := by
  unfold Device.write
  cases dev.driver with
  | ram => exact hI.writeRam hmmu dev a src hcount
  | csr => exact returns_error _
  | other handlers =>
      dsimp only
      cases handlers.write with
      | none => exact returns_error _
      | some f => exact returns_ok hmmu

theorem Mmu.Stable.writeMultiple (hI : Mmu.Stable I) (hmmu : I bus.mmu) (offs : Size)
    (src : Nat → BitVec 8) {count : Size} (hcount : (count * widthMult aw).toNat < 2 ^ 63) :
    Returns (fun r => I r.2.mmu) (busWriteMultiple bus offs src count aw) := by
  intro r hr
  obtain ⟨locked, hlock, -⟩ := Transition.exists_of_bind_ok hr
  obtain ⟨hfree, -⟩ := busLock_eq_ok hlock
  have hfreed : Returns (fun r => I r.2.mmu) (busWriteMultiple bus offs src count aw) := by
    rcases bus.routes_or_unmapped offs with ⟨i, dev, hroute⟩ | hnone
    · rw [busWriteMultiple_routed hfree hroute]
      refine returns_ite (returns_error _) (returns_ite (returns_error _) ?_)
      exact returns_bind (hI.write hmmu dev _ src hcount) fun _ h =>
        returns_ite (returns_ok h) (returns_ok h)
    · rw [busWriteMultiple_unmapped hfree hnone]
      exact returns_ok hmmu
  exact hfreed r hr

theorem Mmu.Stable.writeSingle (hI : Mmu.Stable I) (hmmu : I bus.mmu) (a : Vaddr) (value : Word)
    (aw : Width) : Returns (fun bus' => I bus'.mmu) (busWriteSingle bus (wide a) value aw) := by
  intro bus' h
  rcases busWriteSingle_mmu h with hsame | ⟨hstores, hwritten⟩
  · exact hI.same hmmu hsame
  · rw [hwritten]
    exact hI.written _ aw.bytes_lt hstores.accepts hmmu

theorem Mmu.Stable.readMultiple (hI : Mmu.Stable I) (hmmu : I bus.mmu) (offs : Size)
    (dst : Nat → BitVec 8) (count : Size) (aw : Width) :
    Returns (fun r => I r.2.2.mmu) (busReadMultiple bus offs dst count aw) :=
  fun _ hr => hI.same hmmu (busReadMultiple_frame hr).memory

theorem Mmu.Stable.readSingle (hI : Mmu.Stable I) (hmmu : I bus.mmu) (residue : BitVec 8)
    (offs : Size) (aw : Width) :
    Returns (fun r => I r.2.mmu) (busReadSingle residue bus offs aw) :=
  fun _ hr => hI.same hmmu (busReadSingle_frame hr).memory

theorem Mmu.Stable.readString (hI : Mmu.Stable I) (hmmu : I bus.mmu) (residue : Nat → BitVec 8)
    (offs : Size) : Returns (fun r => I r.2.mmu) (busReadString residue bus offs) := by
  suffices hloop : ∀ fuel i bus, I (Bus.mmu bus) →
      Returns (fun r => I r.2.mmu) (busReadStringLoop residue offs fuel i bus) from
    hloop _ _ bus hmmu
  intro fuel
  induction fuel with
  | zero => exact fun _ _ hmmu => returns_ok hmmu
  | succ fuel ih =>
      intro i bus hmmu
      refine returns_bind (hI.readSingle hmmu _ _ _) fun x hx => returns_ite ?_ (returns_ok hx)
      exact returns_bind (ih _ _ hx) fun y hy => returns_ok hy

end Bus

/-! ## Turns -/

section Machine

variable {I : Mmu → Prop} {m m' : Machine}

theorem Mmu.Stable.memoryAccess (hI : Mmu.Stable I) (hmmu : I m.bus.mmu) (residue : BitVec 8) :
    Returns (fun m' => I m'.bus.mmu) (memoryAccess residue m) := by
  unfold CRiscV.memoryAccess
  refine returns_ite ?_ (returns_ite ?_ (returns_ok hmmu))
  · exact returns_bind (hI.readSingle hmmu _ _ _) fun x hx =>
      returns_ite (returns_ok hx) (returns_ok hx)
  · exact returns_bind (hI.writeSingle hmmu _ _ _) fun x hx =>
      returns_ite (returns_ok hx) (returns_ok hx)

theorem Mmu.Stable.fetch (hI : Mmu.Stable I) (hmmu : I m.bus.mmu) :
    Returns (fun m' => I m'.bus.mmu) (fetch m) := by
  intro m' h
  rcases (fetch_frame h).2.1 with heq | hread
  · rwa [heq]
  · exact hI.same hmmu hread.memory

theorem Mmu.Stable.coreCycle (hI : Mmu.Stable I) (hmmu : I m.bus.mmu) (residue : BitVec 8) :
    Returns (fun m' => I m'.bus.mmu) (coreCycle residue m) := by
  unfold CRiscV.coreCycle
  cases m.core.state with
  | fetch => exact returns_bind (hI.fetch hmmu) fun _ h => returns_ok h
  | decode | writeback => exact returns_ok hmmu
  | execute | trap =>
      exact returns_bind (Transition.returns_any _) fun _ _ => returns_ok hmmu
  | memory => exact returns_bind (hI.memoryAccess hmmu residue) fun _ h => returns_ok h

/-- The handler is called for a `brk` that asks for memory. -/
def Machine.Allocates (m : Machine) : Prop :=
  (csrReadClear32 m.core.csr mcause 0).1 = TrapCause.envCallUmode.code ∧
    m.core.registers 17 = 214 ∧ m.core.registers 10 ≠ 0

/-- Whatever the allocation of a `brk` leaves satisfies `I`. -/
def Machine.AllocatesWithin (m : Machine) (I : Mmu → Prop) : Prop :=
  m.Allocates →
    Returns (fun r => I r.2) (mmuAllocate m.bus.mmu 0x100 (mpermRaw ||| mpermWrite))

theorem Mmu.Stable.sysBrk (hmmu : I m.bus.mmu) {arg0 : Word}
    (hbrk : arg0 ≠ 0 →
      Returns (fun r => I r.2) (mmuAllocate m.bus.mmu 0x100 (mpermRaw ||| mpermWrite))) :
    Returns (fun r => I r.2.bus.mmu) (sysBrk m arg0) := by
  unfold CRiscV.sysBrk
  dsimp only
  by_cases hzero : arg0 = 0
  · rw [if_pos hzero]
    exact returns_ok hmmu
  · have hincrease : ((arg0 - arg0) + 0x100) &&& 0xffffff00 = (0x100 : Word) := by
      rw [BitVec.sub_self]
      decide
    rw [if_neg hzero, hincrease]
    exact returns_bind (hbrk hzero) fun _ h => returns_ok h

theorem Mmu.Stable.handleSyscall (hI : Mmu.Stable I) (hmmu : I m.bus.mmu) (host : Host)
    {n arg0 : Word} (arg1 arg2 : Word)
    (hbrk : n = 214 → arg0 ≠ 0 →
      Returns (fun r => I r.2) (mmuAllocate m.bus.mmu 0x100 (mpermRaw ||| mpermWrite))) :
    Returns (fun r => I r.2.bus.mmu) (handleSyscall host m n arg0 arg1 arg2) := by
  have hnone : Returns (fun r => I r.2.bus.mmu)
      (.ok (false, m) : Except Abort (Bool × Machine)) := returns_ok hmmu
  have hblock : ∀ size : Word, (wide size * widthMult .byte).toNat < 2 ^ 63 := by
    intro size
    have hsize := wide_lt size
    have hone : wide size * widthMult .byte = wide size := BitVec.mul_one _
    rw [hone]
    omega
  unfold CRiscV.handleSyscall
  refine returns_ite hnone (returns_ite hnone ?_)
  by_cases hn : n = 214
  · rw [if_pos hn]
    exact Mmu.Stable.sysBrk hmmu (hbrk hn)
  · rw [if_neg hn]
    refine returns_ite ?_ (returns_ite ?_ (returns_ite ?_ (returns_ite ?_ (returns_ite ?_
      (returns_ite ?_ hnone)))))
    · exact returns_bind (hI.writeMultiple hmmu _ _ (hblock arg2)) fun _ h => returns_ok h
    · refine returns_ite (returns_error _) (returns_ite (returns_error _) ?_)
      exact returns_bind (hI.readMultiple hmmu _ _ _ _) fun _ h => returns_ok h
    · refine returns_bind (hI.readString hmmu _ _) fun _ h => returns_ite (returns_error _) ?_
      exact returns_ite (returns_ok h) (returns_ok h)
    · exact returns_ite (returns_ok hmmu) (returns_ok hmmu)
    · exact returns_ok hmmu
    · exact returns_bind (hI.writeMultiple hmmu _ _ (by decide)) fun _ h => returns_ok h

theorem Mmu.Stable.trapHandler (hI : Mmu.Stable I) (hmmu : I m.bus.mmu) (host : Host)
    (hbrk : m.AllocatesWithin I) :
    Returns (fun r => I r.2.bus.mmu) (trapHandler host m) := by
  unfold CRiscV.trapHandler
  dsimp only
  by_cases hcause : (csrReadClear32 m.core.csr mcause 0).1 = TrapCause.envCallUmode.code
  · rw [if_pos hcause]
    refine hI.handleSyscall ?_ host _ _ ?_
    · exact hmmu
    · exact fun hn harg => hbrk ⟨hcause, hn, harg⟩
  · rw [if_neg hcause]
    exact returns_ok hmmu

/-- A turn keeps what every transfer keeps, if the allocation of its `brk` does. -/
theorem ThreadStep.stable {t t' : Turn} {host : Host} (h : ThreadStep emulatorTurn t host t')
    (hI : Mmu.Stable I) (hmmu : I t.machine.bus.mmu)
    (hbrk : ∀ m, t'.handled = some m → I m.bus.mmu → m.AllocatesWithin I) :
    I t'.machine.bus.mmu := by
  obtain ⟨m, hcycle, hturn⟩ := h.cycle
  have hm := hI.coreCycle hmmu _ m hcycle
  unfold handleTrap at hturn
  by_cases hhandle : m.core.state = .trap ∧ m.core.trapState = .handle
  · rw [if_pos hhandle] at hturn
    obtain ⟨r, hr, hturn⟩ := Transition.exists_of_bind_ok hturn
    cases hturn
    exact hI.trapHandler hm host (hbrk m rfl hm) r hr
  · rw [if_neg hhandle] at hturn
    cases hturn
    exact hm

end Machine

end CRiscV
