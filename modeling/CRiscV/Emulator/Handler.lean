/-
What a system call and the trap handler may do to the core: set the saved a0.  What
a turn of the thread loop does around them.
-/
import CRiscV.Emulator.Thread

namespace CRiscV

open Transition (Returns returns_ok returns_error returns_ite returns_bind returns_any)

/-- The core with another saved a0. -/
def Core.SavesA0 (core core' : Core) : Prop :=
  core' = { core with trapRegs := fun r => if r = 10 then core'.trapRegs 10 else core.trapRegs r }

theorem savesA0_refl (core : Core) : core.SavesA0 core := by
  have hregs : core.trapRegs = fun r => if r = 10 then core.trapRegs 10 else core.trapRegs r := by
    funext r
    by_cases hr : r = 10
    · rw [if_pos hr, hr]
    · rw [if_neg hr]
  unfold Core.SavesA0
  rw [← hregs]

theorem savesA0_setA0 (m : Machine) (v : Word) : m.core.SavesA0 (m.setA0 v).core := rfl

section Syscall

variable (host : Host) (m : Machine) (arg0 arg1 arg2 : Word)

theorem sysRead_saves :
    Returns (fun r => m.core.SavesA0 r.2.core) (sysRead host m arg0 arg1 arg2) :=
  returns_bind (returns_any _) fun _ _ => returns_ok (savesA0_setA0 _ _)

theorem sysWrite_saves :
    Returns (fun r => m.core.SavesA0 r.2.core) (sysWrite host m arg0 arg1 arg2) := by
  unfold sysWrite
  refine returns_ite (returns_error _) (returns_ite (returns_error _) ?_)
  exact returns_bind (returns_any _) fun _ _ => returns_ok (savesA0_setA0 _ _)

theorem sysFstat_saves :
    Returns (fun r => m.core.SavesA0 r.2.core) (sysFstat host m arg0 arg1) :=
  returns_bind (returns_any _) fun _ _ => returns_ok (savesA0_setA0 _ _)

theorem sysClose_saves : Returns (fun r => m.core.SavesA0 r.2.core) (sysClose host m arg0) :=
  returns_ite (returns_ok (savesA0_setA0 _ _)) (returns_ok (savesA0_setA0 _ _))

theorem sysOpen_saves :
    Returns (fun r => m.core.SavesA0 r.2.core) (sysOpen host m arg0 arg1 arg2) := by
  refine returns_bind (returns_any _) fun r _ => returns_ite (returns_error _) ?_
  exact returns_ite (returns_ok (savesA0_refl _)) (returns_ok (savesA0_setA0 _ _))

theorem sysBrk_saves : Returns (fun r => m.core.SavesA0 r.2.core) (sysBrk m arg0) := by
  refine returns_ite ?_ (returns_ok (savesA0_setA0 _ _))
  exact returns_bind (returns_any _) fun _ _ => returns_ok (savesA0_setA0 _ _)

theorem handleSyscall_saves (n : Word) :
    Returns (fun r => m.core.SavesA0 r.2.core) (handleSyscall host m n arg0 arg1 arg2) := by
  have hnone : Returns (fun r => m.core.SavesA0 r.2.core)
      (.ok (false, m) : Except Abort (Bool × Machine)) := returns_ok (savesA0_refl _)
  unfold handleSyscall
  refine returns_ite hnone (returns_ite hnone (returns_ite (sysBrk_saves m arg0) ?_))
  refine returns_ite (sysRead_saves host m arg0 arg1 arg2) ?_
  refine returns_ite (sysWrite_saves host m arg0 arg1 arg2) ?_
  refine returns_ite (sysOpen_saves host m arg0 arg1 arg2) ?_
  refine returns_ite (sysClose_saves host m arg0) ?_
  refine returns_ite (returns_ok (savesA0_setA0 _ _)) ?_
  exact returns_ite (sysFstat_saves host m arg0 arg1) hnone

end Syscall

theorem trapHandler_saves (host : Host) (m : Machine) :
    Returns (fun r => ∃ csr, Core.SavesA0 { m.core with csr := csr } r.2.core)
      (trapHandler host m) := by
  unfold trapHandler
  refine returns_ite ?_ (returns_ok ⟨_, savesA0_refl _⟩)
  intro r hr
  exact ⟨_, handleSyscall_saves host (m.withCore { m.core with csr := _ }) _ _ _ _ r hr⟩

/-- The handler leaves `mepc` as the trap has set it. -/
theorem trapHandler_mepc {host : Host} {m : Machine} {pc : Word}
    (hmepc : m.core.csr mepc = wide pc) :
    Returns (fun r => r.2.core.csr mepc = wide pc) (trapHandler host m) := by
  have hkept : (csrReadClear32 m.core.csr mcause 0).2 mepc = wide pc := by
    rw [csrReadClear32_of_ne m.core.csr (show mepc ≠ mcause by decide), hmepc]
  unfold trapHandler
  simp only [csrReadClear32_wide hkept]
  refine returns_ite ?_ (returns_ok hkept)
  intro r hr
  have hsaves := handleSyscall_saves host _ _ _ _ _ r hr
  rw [hsaves]
  exact hkept

/-- On the registers that a trap has set, the handler reads the cause and nothing
else before it decides. -/
theorem trapHandler_eq {host : Host} {m : Machine} {cause : TrapCause} {pc : Word}
    (hcause : m.core.csr mcause = wide cause.code) (hepc : m.core.csr mepc = wide pc) :
    trapHandler host m =
      if cause = .envCallUmode then handleUmodeCall host m else .ok (false, m) := by
  unfold trapHandler
  simp only [csrReadClear32_wide hcause, csrReadClear32_wide hepc]
  by_cases hecall : cause = .envCallUmode
  · rw [if_pos hecall, hecall]
    exact if_pos rfl
  · rw [if_neg hecall]
    exact if_neg fun hcode => hecall (TrapCause.code_inj hcode)

/-! ## One turn -/

theorem emulatorTurn_eq (host : Host) (m : Machine) :
    emulatorTurn host m = coreCycle (host.residue 0) m >>= handleTrap (some trapHandler) host := rfl

theorem handleTrap_quiet {handler : Option TrapHandler} {host : Host} {m : Machine}
    (h : m.core.state = .trap → m.core.trapState ≠ .handle) :
    handleTrap handler host m = .ok { machine := m, handled := none, running := true } :=
  if_neg fun hhandle => h hhandle.1 hhandle.2

theorem ThreadStep.cycle {t t' : Turn} {host : Host} (h : ThreadStep emulatorTurn t host t') :
    ∃ m, coreCycle (host.residue 0) t.machine = .ok m ∧
      handleTrap (some trapHandler) host m = .ok t' := by
  have hturn := h.2
  rw [emulatorTurn_eq] at hturn
  exact Transition.exists_of_bind_ok hturn

/-- A step whose cycle does not end in front of the handler. -/
theorem ThreadStep.quiet {t t' : Turn} {host : Host} {m : Machine}
    (h : ThreadStep emulatorTurn t host t') (hcycle : coreCycle (host.residue 0) t.machine = .ok m)
    (hquiet : m.core.state = .trap → m.core.trapState ≠ .handle) :
    t' = { machine := m, handled := none, running := true } := by
  obtain ⟨m', hcycle', hturn⟩ := h.cycle
  rw [hcycle] at hcycle'
  cases hcycle'
  rw [handleTrap_quiet hquiet] at hturn
  exact (Except.ok.inj hturn).symm

end CRiscV
