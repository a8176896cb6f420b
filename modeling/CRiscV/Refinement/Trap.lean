/-
Traps: what a trapping instruction has done before the handler sees the core, and
where the core goes on after a system call.
-/
import CRiscV.Core.Stages
import CRiscV.Emulator.Handler
import CRiscV.Refinement.Hart

namespace CRiscV

open Transition (Run)

/-- Nothing of the instruction that was fetched at `f` shows yet. -/
structure Machine.Untouched (f m : Machine) : Prop where
  registers : m.core.registers = f.core.registers
  pc : m.core.pc = f.core.pc
  memory : f.bus.mmu.SameMemory m.bus.mmu

/-- A turn that does not call the handler. -/
def QuietStep (t : Turn) (host : Host) (t' : Turn) : Prop :=
  ThreadStep emulatorTurn t host t' ∧ t'.handled = none

/-- A quiet turn that leaves no trace of the instruction. -/
def TracelessStep (t : Turn) (host : Host) (t' : Turn) : Prop :=
  QuietStep t host t' ∧ t.machine.Untouched t'.machine

/-- The last of the turns `hosts` from `s` to `t` are `n` traceless ones, of which the
first began at `f` and fetched the instruction that is in flight. -/
structure FetchedAt (s : Turn) (hosts : List Host) (f : Turn) (n : Nat) (t : Turn) : Prop where
  turns : ∃ before since, hosts = before ++ since ∧ since.length = n ∧
    Run (ThreadStep emulatorTurn) s before f ∧ Run TracelessStep f since t
  fetching : f.machine.core.state = .fetch
  untouched : f.machine.Untouched t.machine

/-- The handler is called on `mh` for a trap with this cause. -/
structure Machine.TrapsTo (f mh : Machine) (cause : TrapCause) : Prop where
  untouched : f.Untouched mh
  mepc : mh.core.csr mepc = wide f.core.pc
  mcause : mh.core.csr mcause = wide cause.code

/-- The core goes on behind the instruction fetched at `f`, with the a0 that the
handler has saved in `mh`. -/
structure Machine.Resumes (f mh m : Machine) : Prop where
  state : m.core.state = .fetch
  trapState : m.core.trapState = .none
  pc : m.core.pc = f.core.pc + 4
  prefetchCnt : m.core.prefetchCnt = 0
  registers : m.core.registers = fun r =>
    if r = 10 then mh.core.trapRegs 10 else f.core.registers r
  bus : m.bus = mh.bus

/-- The turn behind `t` calls the handler on `mh`, and if that does not end the loop,
the two turns after it do not call it and lead to the next fetch. -/
structure HandledOnce (t : Turn) (mh : Machine) : Prop where
  called : ∀ host, emulatorTurn host t.machine = (trapHandler host mh).map fun r =>
    { machine := r.2, handled := some mh, running := r.1 }
  once : ∀ {host host₂ host₃ : Host} {t₁ t₂ t₃ : Turn}, ThreadStep emulatorTurn t host t₁ →
    ThreadStep emulatorTurn t₁ host₂ t₂ → ThreadStep emulatorTurn t₂ host₃ t₃ →
    t₁.handled = some mh ∧ t₂.handled = none ∧ t₃.handled = none ∧
      t₃.machine.core.state = .fetch

/-! ## One turn -/

theorem Machine.Untouched.trans {f m m' : Machine} (h : f.Untouched m) (h' : m.Untouched m') :
    f.Untouched m' :=
  ⟨h'.registers.trans h.registers, h'.pc.trans h.pc, h.memory.trans h'.memory⟩

theorem FetchedAt.snoc {s f t t' : Turn} {hosts : List Host} {host : Host} {n : Nat}
    (h : FetchedAt s hosts f n t) (hstep : QuietStep t host t')
    (huntouched : t.machine.Untouched t'.machine) :
    FetchedAt s (hosts ++ [host]) f (n + 1) t' := by
  obtain ⟨before, since, hhosts, hlen, hbefore, hsince⟩ := h.turns
  refine ⟨⟨before, since ++ [host], ?_, ?_, hbefore, hsince.snoc ⟨hstep, huntouched⟩⟩,
    h.fetching, h.untouched.trans huntouched⟩
  · rw [hhosts, List.append_assoc]
  · rw [List.length_append, hlen]
    rfl

theorem fetchedAt_self {s t : Turn} {hosts : List Host}
    (hrun : Run (ThreadStep emulatorTurn) s hosts t) (hfetch : t.machine.core.state = .fetch) :
    FetchedAt s hosts t 0 t :=
  ⟨⟨hosts, [], (List.append_nil hosts).symm, rfl, hrun, .nil⟩, hfetch, ⟨rfl, rfl, .refl _⟩⟩

/-! ## From the fetch to the trap -/

/-- Where the instruction in flight was fetched, by the stage that the core is at. -/
def InFlight (s : Turn) (hosts : List Host) (t : Turn) : Prop :=
  match t.machine.core.state with
  | .decode => ∃ f, FetchedAt s hosts f 1 t
  | .execute => ∃ f, FetchedAt s hosts f 2 t
  | .memory => ∃ f, FetchedAt s hosts f 3 t
  | .trap => t.machine.core.trapState = .enter → t.running = true ∧
      ∃ (f : Turn) (n : Nat) (cause : TrapCause), n ≤ 4 ∧ FetchedAt s hosts f n t ∧
        t.machine.core.csr mcause = wide cause.code
  | .fetch | .writeback => True

section Flight

variable {s f t t' : Turn} {hosts : List Host} {host : Host} {n : Nat}

/-- The stage either hands over to the next or traps; the instruction is in flight
in both cases. -/
theorem FetchedAt.outcome {next : CoreState} {m : Machine} (h : FetchedAt s hosts f n t)
    (hn : n < 4) (hstep : ThreadStep emulatorTurn t host t')
    (hcycle : coreCycle (host.residue 0) t.machine = .ok m)
    (hout : t.machine.Outcome next m) (hnext : next ≠ .trap) :
    (t'.machine = m ∧ m.core.state = next ∧
      (m.bus = t.machine.bus → FetchedAt s (hosts ++ [host]) f (n + 1) t')) ∨
    (t'.machine.core.state = .trap ∧ InFlight s (hosts ++ [host]) t') := by
  cases hout with
  | done dec aluOut bus =>
      left
      have ht' := hstep.quiet hcycle (fun htrap => absurd htrap hnext)
      subst ht'
      refine ⟨rfl, rfl, fun hbus => h.snoc ⟨hstep, rfl⟩ ⟨rfl, rfl, ?_⟩⟩
      show t.machine.bus.mmu.SameMemory bus.mmu
      rw [show bus = t.machine.bus from hbus]
      exact .refl _
  | trapped dec aluOut bus cause hmem =>
      right
      have ht' := hstep.quiet hcycle (fun _ henter => by cases henter)
      subst ht'
      refine ⟨rfl, fun _ => ⟨rfl, f, n + 1, cause, hn, h.snoc ⟨hstep, rfl⟩ ⟨rfl, rfl, hmem⟩, ?_⟩⟩
      exact causeTrap_mcause { t.machine.core with decoded := dec, aluOut := aluOut } cause

theorem FetchedAt.decode (h : FetchedAt s hosts f 1 t) (hstate : t.machine.core.state = .decode)
    (hstep : ThreadStep emulatorTurn t host t') : InFlight s (hosts ++ [host]) t' := by
  obtain ⟨m, hcycle, -⟩ := hstep.cycle
  obtain ⟨hout, hbus⟩ := coreCycle_decode_outcome hstate hcycle
  rcases h.outcome (by omega) hstep hcycle hout nofun with ⟨hm, hnext, hflight⟩ | ⟨-, htrap⟩
  · unfold InFlight
    rw [hm, hnext]
    exact ⟨f, hflight hbus⟩
  · exact htrap

theorem FetchedAt.execute (h : FetchedAt s hosts f 2 t)
    (hstate : t.machine.core.state = .execute) (hstep : ThreadStep emulatorTurn t host t') :
    InFlight s (hosts ++ [host]) t' := by
  obtain ⟨m, hcycle, -⟩ := hstep.cycle
  obtain ⟨hout, hbus⟩ := coreCycle_execute_outcome hstate hcycle
  rcases h.outcome (by omega) hstep hcycle hout nofun with ⟨hm, hnext, hflight⟩ | ⟨-, htrap⟩
  · unfold InFlight
    rw [hm, hnext]
    exact ⟨f, hflight hbus⟩
  · exact htrap

theorem FetchedAt.memory (h : FetchedAt s hosts f 3 t) (hstate : t.machine.core.state = .memory)
    (hstep : ThreadStep emulatorTurn t host t') : InFlight s (hosts ++ [host]) t' := by
  obtain ⟨m, hcycle, -⟩ := hstep.cycle
  have hout := coreCycle_memory_outcome hstate hcycle
  rcases h.outcome (by omega) hstep hcycle hout nofun with ⟨hm, hnext, -⟩ | ⟨-, htrap⟩
  · unfold InFlight
    rw [hm, hnext]
    trivial
  · exact htrap

theorem inFlight_fetch (hrun : Run (ThreadStep emulatorTurn) s hosts t)
    (hstate : t.machine.core.state = .fetch) (hstep : ThreadStep emulatorTurn t host t') :
    InFlight s (hosts ++ [host]) t' := by
  obtain ⟨m, hcycle, -⟩ := hstep.cycle
  have hfetched := coreCycle_fetched hstate hcycle
  have hdecode : m.core.state = .decode := by
    rw [hfetched.core]
  have ht' := hstep.quiet hcycle (fun htrap => by rw [hdecode] at htrap; cases htrap)
  subst ht'
  unfold InFlight
  simp only [hdecode]
  refine ⟨t, (fetchedAt_self hrun hstate).snoc ⟨hstep, rfl⟩ ⟨?_, ?_, hfetched.memory⟩⟩
  · rw [hfetched.core]
  · rw [hfetched.core]

theorem inFlight_writeback (hstate : t.machine.core.state = .writeback)
    (hstep : ThreadStep emulatorTurn t host t') : InFlight s (hosts ++ [host]) t' := by
  have ht' := hstep.quiet (coreCycle_writeback hstate) (fun htrap => by cases htrap)
  subst ht'
  trivial

end Flight

/-! ## The turns of a trap -/

section TrapTurns

variable {t t' : Turn} {host : Host}

theorem emulatorTurn_enter (htrap : t.machine.core.state = .trap)
    (henter : t.machine.core.trapState = .enter) (host : Host) :
    emulatorTurn host t.machine = (trapHandler host t.machine.entered).map fun r =>
      { machine := r.2, handled := some t.machine.entered, running := r.1 } := by
  rw [emulatorTurn_eq, coreCycle_enter htrap henter, Transition.ok_bind]
  exact if_pos ⟨htrap, rfl⟩

/-- The handler leaves the trap where it is. -/
theorem ThreadStep.enter (htrap : t.machine.core.state = .trap)
    (henter : t.machine.core.trapState = .enter) (hstep : ThreadStep emulatorTurn t host t') :
    t'.handled = some t.machine.entered ∧ t'.machine.core.state = .trap ∧
      t'.machine.core.trapState = .handle := by
  have hturn := hstep.2
  rw [emulatorTurn_enter htrap henter] at hturn
  obtain ⟨r, hr, hturn⟩ := Transition.exists_of_map_ok hturn
  obtain ⟨csr, hsaves⟩ := trapHandler_saves host _ r hr
  subst hturn
  refine ⟨rfl, ?_, ?_⟩
  · rw [hsaves]
    exact htrap
  · rw [hsaves]
    rfl

theorem ThreadStep.handle (htrap : t.machine.core.state = .trap)
    (hhandle : t.machine.core.trapState = .handle) (hstep : ThreadStep emulatorTurn t host t') :
    t' = Turn.first t.machine.exiting :=
  hstep.quiet (coreCycle_handle htrap hhandle) (fun _ hexit => by cases hexit)

theorem ThreadStep.exit (htrap : t.machine.core.state = .trap)
    (hexit : t.machine.core.trapState = .exit) (hstep : ThreadStep emulatorTurn t host t') :
    t'.handled = none ∧ t'.machine.core.state = .fetch := by
  have ht' := hstep.quiet (coreCycle_exit htrap hexit) (fun hfetch => by cases hfetch)
  subst ht'
  exact ⟨rfl, rfl⟩

theorem handledOnce (htrap : t.machine.core.state = .trap)
    (henter : t.machine.core.trapState = .enter) : HandledOnce t t.machine.entered := by
  refine ⟨emulatorTurn_enter htrap henter, ?_⟩
  intro host host₂ host₃ t₁ t₂ t₃ h₁ h₂ h₃
  obtain ⟨hcalled, htrap₁, hhandle₁⟩ := h₁.enter htrap henter
  have ht₂ := h₂.handle htrap₁ hhandle₁
  have htrap₂ : t₂.machine.core.state = .trap := by
    rw [ht₂]
    exact htrap₁
  have hexit₂ : t₂.machine.core.trapState = .exit := by
    rw [ht₂]
    rfl
  obtain ⟨hquiet₃, hfetch₃⟩ := h₃.exit htrap₂ hexit₂
  refine ⟨hcalled, ?_, hquiet₃, hfetch₃⟩
  rw [ht₂]
  rfl

end TrapTurns

/-! ## Runs -/

theorem inFlight_trap {s t t' : Turn} {hosts : List Host} {host : Host}
    (hstate : t.machine.core.state = .trap) (hstep : ThreadStep emulatorTurn t host t') :
    InFlight s (hosts ++ [host]) t' := by
  unfold InFlight
  cases htrap : t.machine.core.trapState with
  | none =>
      obtain ⟨m, hcycle, -⟩ := hstep.cycle
      rw [coreCycle_untrapped hstate htrap] at hcycle
      cases hcycle
  | enter =>
      obtain ⟨-, hstate', htrap'⟩ := hstep.enter hstate htrap
      rw [hstate', htrap']
      intro henter
      cases henter
  | handle =>
      rw [hstep.handle hstate htrap]
      simp only [Turn.first, Machine.exiting, Machine.withCore, hstate]
      intro henter
      cases henter
  | exit =>
      rw [(hstep.exit hstate htrap).2]
      trivial

theorem inFlight_step {s t t' : Turn} {hosts : List Host} {host : Host}
    (hrun : Run (ThreadStep emulatorTurn) s hosts t) (h : InFlight s hosts t)
    (hstep : ThreadStep emulatorTurn t host t') : InFlight s (hosts ++ [host]) t' := by
  unfold InFlight at h
  cases hstate : t.machine.core.state with
  | fetch => exact inFlight_fetch hrun hstate hstep
  | decode =>
      rw [hstate] at h
      obtain ⟨f, hf⟩ := h
      exact hf.decode hstate hstep
  | execute =>
      rw [hstate] at h
      obtain ⟨f, hf⟩ := h
      exact hf.execute hstate hstep
  | memory =>
      rw [hstate] at h
      obtain ⟨f, hf⟩ := h
      exact hf.memory hstate hstep
  | writeback => exact inFlight_writeback hstate hstep
  | trap => exact inFlight_trap hstate hstep

/-- In every run from a fetch, an instruction that is in flight was fetched a few
quiet turns ago. -/
theorem inFlight_run {s t : Turn} {hosts : List Host} (hs : s.machine.core.state = .fetch)
    (hrun : Run (ThreadStep emulatorTurn) s hosts t) : InFlight s hosts t := by
  induction hrun with
  | nil =>
      unfold InFlight
      rw [hs]
      trivial
  | snoc hrun hstep ih => exact inFlight_step hrun ih hstep

/-! ## Precision and resumption -/

theorem trapsTo_entered {f m : Machine} {cause : TrapCause} (h : f.Untouched m)
    (hcause : m.core.csr mcause = wide cause.code) : f.TrapsTo m.entered cause := by
  refine ⟨⟨h.registers, h.pc, h.memory⟩, ?_, ?_⟩
  · rw [← h.pc]
    exact Csr.set_self m.core.csr mepc (wide m.core.pc)
  · rw [← hcause]
    exact Csr.set_of_ne m.core.csr (show mcause ≠ mepc by decide) (wide m.core.pc)

/-- After a system call that lets the loop go on, two quiet turns lead behind the
instruction. -/
theorem resumes_entered {f m m' : Machine} {cause : TrapCause} (h : f.TrapsTo m.entered cause)
    (htrap : m.core.state = .trap) (hsaves : m.entered.core.SavesA0 m'.core)
    (host₂ host₃ : Host) :
    ∃ t₂ t₃, QuietStep { machine := m', handled := some m.entered, running := true } host₂ t₂ ∧
      QuietStep t₂ host₃ t₃ ∧ t₃.running = true ∧ f.Resumes m' t₃.machine := by
  have hstate : m'.core.state = .trap := by
    rw [hsaves]
    exact htrap
  have hhandle : m'.core.trapState = .handle := by
    rw [hsaves]
    rfl
  have hepc : m'.core.csr mepc = wide f.core.pc := by
    rw [hsaves]
    exact h.mepc
  have hpc : csrReadClear32 m'.core.csr mepc 0 = (f.core.pc, m'.core.csr) :=
    csrReadClear32_wide hepc
  have hexit : coreCycle (host₃.residue 0) m'.exiting = .ok m'.exiting.resumed :=
    coreCycle_exit (show m'.exiting.core.state = .trap from hstate) rfl
  refine ⟨Turn.first m'.exiting, Turn.first m'.exiting.resumed, ⟨⟨rfl, ?_⟩, rfl⟩,
    ⟨⟨rfl, ?_⟩, rfl⟩, rfl, ⟨rfl, rfl, ?_, rfl, ?_, rfl⟩⟩
  · rw [emulatorTurn_eq, coreCycle_handle hstate hhandle, Transition.ok_bind]
    exact handleTrap_quiet (fun _ hhandle' => by cases hhandle')
  · rw [emulatorTurn_eq]
    show coreCycle _ m'.exiting >>= _ = _
    rw [hexit, Transition.ok_bind]
    exact handleTrap_quiet (fun hfetch => by cases hfetch)
  · show (csrReadClear32 m'.core.csr mepc 0).1 + 4 = f.core.pc + 4
    rw [hpc]
  · show m'.core.trapRegs = _
    rw [← h.untouched.registers, hsaves]
    rfl

/-- Every trap of an instruction in flight is precise, is handled once, and a system
call that returns true resumes behind it. -/
theorem trap_precise {s t : Turn} {hosts : List Host} (hs : s.machine.core.state = .fetch)
    (hrun : Run (ThreadStep emulatorTurn) s hosts t) (htrap : t.machine.core.state = .trap)
    (henter : t.machine.core.trapState = .enter) :
    ∃ (f : Turn) (n : Nat) (cause : TrapCause) (mh : Machine),
      n ≤ 4 ∧ FetchedAt s hosts f n t ∧ t.machine.core.csr mcause = wide cause.code ∧
      f.machine.TrapsTo mh cause ∧ HandledOnce t mh ∧
      (cause = .envCallUmode → ∀ host m',
        handleSyscall host mh (f.machine.core.registers 17) (f.machine.core.registers 10)
          (f.machine.core.registers 11) (f.machine.core.registers 12) = .ok (true, m') →
        emulatorTurn host t.machine =
            .ok { machine := m', handled := some mh, running := true } ∧
          ∀ host₂ host₃, ∃ t₂ t₃,
            QuietStep { machine := m', handled := some mh, running := true } host₂ t₂ ∧
              QuietStep t₂ host₃ t₃ ∧ t₃.running = true ∧
              f.machine.Resumes m' t₃.machine) := by
  have hflight := inFlight_run hs hrun
  unfold InFlight at hflight
  rw [htrap] at hflight
  obtain ⟨-, f, n, cause, hn, hfetched, hcause⟩ := hflight henter
  have htraps := trapsTo_entered hfetched.untouched hcause
  refine ⟨f, n, cause, t.machine.entered, hn, hfetched, hcause, htraps,
    handledOnce htrap henter, ?_⟩
  intro hecall host m' hsyscall
  have hsaves := handleSyscall_saves host _ _ _ _ _ _ hsyscall
  have hhandler : trapHandler host t.machine.entered = .ok (true, m') := by
    rw [trapHandler_eq htraps.mcause htraps.mepc, if_pos hecall, handleUmodeCall,
      htraps.untouched.registers]
    exact hsyscall
  constructor
  · rw [emulatorTurn_enter htrap henter, hhandler]
    rfl
  · exact resumes_entered htraps htrap hsaves

/-- A host that answers every call with zero. -/
def quietHost : Host :=
  { residue := fun _ => 0
    buffer := fun _ => 0
    read := fun _ buf _ => (buf, 0)
    write := fun _ _ => 0
    fstat := fun _ buf => (buf, 0)
    close := fun _ => 0
    openFile := fun _ _ _ => 0
    lseek := fun _ _ _ => 0 }

/-- `close(0)`, at the end of a prefetch buffer. -/
def ecallMachine : Machine :=
  { core := { coreInit cpuInitCore 0 ramStart with
      prefetch := fun _ => 0x00000073
      prefetchCnt := 1
      registers := fun r => if r = 17 then 57 else 0 }
    bus := mainBus (programMmu [])
    calls := [] }

theorem ecallMachine_run :
    ∃ t, Run (ThreadStep emulatorTurn) (Turn.first ecallMachine)
        [quietHost, quietHost, quietHost] t ∧
      t.machine.core.state = .trap ∧ t.machine.core.trapState = .enter :=
  ⟨_, ((Run.nil.snoc ⟨rfl, rfl⟩).snoc ⟨rfl, rfl⟩).snoc ⟨rfl, rfl⟩, rfl, rfl⟩

theorem ecallMachine_precise :
    ∃ t, Run (ThreadStep emulatorTurn) (Turn.first ecallMachine)
        [quietHost, quietHost, quietHost] t ∧
      ∃ (f : Turn) (n : Nat) (cause : TrapCause) (mh : Machine),
        FetchedAt (Turn.first ecallMachine) [quietHost, quietHost, quietHost] f n t ∧
          f.machine.TrapsTo mh cause ∧ HandledOnce t mh := by
  obtain ⟨t, hrun, htrap, henter⟩ := ecallMachine_run
  obtain ⟨f, n, cause, mh, -, hfetched, -, htraps, honce, -⟩ := trap_precise rfl hrun htrap henter
  exact ⟨t, hrun, f, n, cause, mh, hfetched, htraps, honce⟩

end CRiscV
