/-
The control of a core: its stages and the three states of a trap as one machine.

The first part is that machine alone.  The second is a core in any surroundings, with
any bus at each call and any handler that leaves all but the saved a0 and the CSRs of
the core alone, and follows it.
-/
import CRiscV.Emulator.Handler
import CRiscV.Core.Prefetch

namespace CRiscV

open Transition (Run)

/-! ## Phases -/

/-- Where a core is between two calls. -/
inductive Phase where
  | fetch | decode | execute | memory | writeback | enter | handle | exit
  deriving DecidableEq, Repr

inductive PhaseStep : Phase → Phase → Prop
  | fetched : PhaseStep .fetch .decode
  | decoded : PhaseStep .decode .execute
  | executed : PhaseStep .execute .memory
  | accessed : PhaseStep .memory .writeback
  | written : PhaseStep .writeback .fetch
  | decodeTrap : PhaseStep .decode .enter
  | executeTrap : PhaseStep .execute .enter
  | memoryTrap : PhaseStep .memory .enter
  | entered : PhaseStep .enter .handle
  | handled : PhaseStep .handle .exit
  | exited : PhaseStep .exit .fetch

def Core.phase (core : Core) : Phase :=
  match core.state with
  | .fetch => .fetch
  | .decode => .decode
  | .execute => .execute
  | .memory => .memory
  | .writeback => .writeback
  | .trap =>
      match core.trapState with
      | .none | .enter => .enter
      | .handle => .handle
      | .exit => .exit

/-- What holds of a core between two calls. -/
structure Core.Sound (core : Core) : Prop where
  trapped : core.state = .trap ↔ core.trapState ≠ .none
  zero : core.registers 0 = 0
  saved : core.trapState = .handle ∨ core.trapState = .exit → core.trapRegs 0 = 0
  bounded : core.prefetchCnt.toNat ≤ 7

/-- What the core finds around it in one call. -/
structure Surroundings where
  residue : BitVec 8
  bus : Bus
  calls : List HostCall

def Core.within (core : Core) (env : Surroundings) : Machine :=
  { core := core, bus := env.bus, calls := env.calls }

/-- One call of `core_cycle`, and the handler where the thread loop calls it. -/
def SurroundedStep (core : Core) (env : Surroundings) (core' : Core) : Prop :=
  ∃ m, coreCycle env.residue (core.within env) = .ok m ∧
    if m.core.state = .trap ∧ m.core.trapState = .handle then
      ∃ csr, Core.SavesA0 { m.core with csr := csr } core'
    else core' = m.core

/-- The registers and the program counter are as they were. -/
def Core.SameRegisters (core core' : Core) : Prop :=
  core'.registers = core.registers ∧ core'.pc = core.pc

/-- One register at most is written. -/
def Core.WritesOne (core core' : Core) : Prop :=
  core'.registers = core.registers ∨ ∃ rd v, core'.registers = regW core.registers rd v

/-- What one call does to the registers. -/
def Core.Frame (core core' : Core) : Prop :=
  match core.phase with
  | .fetch | .decode | .execute | .memory | .enter | .handle => core.SameRegisters core'
  | .writeback => core.WritesOne core'
  | .exit => True

section Cycle

variable {m m' : Machine} {residue : BitVec 8}

theorem fetch_bounded (hbound : m.core.prefetchCnt.toNat ≤ 7) (h : fetch m = .ok m') :
    m'.core.prefetchCnt.toNat ≤ 7 := by
  by_cases hcnt : m.core.prefetchCnt = 0
  · unfold fetch at h
    rw [if_pos hcnt] at h
    obtain ⟨⟨n, buf, bus⟩, -, h⟩ := Transition.exists_of_bind_ok h
    simp only at h
    split_ifs at h
    cases h
    show (7 : BitVec 4).toNat ≤ 7
    decide
  · obtain ⟨hlt, rfl⟩ := fetch_buffered hcnt h
    show (m.core.prefetchCnt - 1).toNat ≤ 7
    have hpos : m.core.prefetchCnt.toNat ≠ 0 := fun hzero => hcnt (BitVec.eq_of_toNat_eq hzero)
    rw [BitVec.toNat_sub]
    have hone : (1 : BitVec 4).toNat = 1 := rfl
    omega

theorem regW_zero (regs : Regs) (x : BitVec 5) (y : Word) (h : regs 0 = 0) :
    regW regs x y 0 = 0 := by
  unfold regW
  by_cases hx : (0 : BitVec 5) = x
  · rw [if_pos hx, if_pos hx.symm]
  · rw [if_neg hx, h]

/-- Away from a trap, the state alone says the phase. -/
theorem Core.phase_eq {core : Core} {state : CoreState} :
    core.state = state → state ≠ .trap →
      core.phase = match state with
        | .fetch => .fetch
        | .decode => .decode
        | .execute => .execute
        | .memory => .memory
        | .writeback => .writeback
        | .trap => .enter := by
  intro hstate hne
  unfold Core.phase
  rw [hstate]
  cases state with
  | trap => exact absurd rfl hne
  | fetch | decode | execute | memory | writeback => rfl

theorem Core.Sound.untrapped {core : Core} (hsound : core.Sound) (hne : core.state ≠ .trap) :
    core.trapState = .none := by
  by_contra hsome
  exact hne (hsound.trapped.mpr hsome)

/-- A stage that carries the instruction on, or traps. -/
theorem Machine.Outcome.control {next : CoreState} (h : m.Outcome next m')
    (hsound : m.core.Sound) (hne : m.core.state ≠ .trap) (hnext : next ≠ .trap) :
    (m'.core.state = next ∨ m'.core.phase = .enter) ∧ m'.core.Sound ∧
      m.core.SameRegisters m'.core := by
  have hnone := hsound.untrapped hne
  cases h with
  | done dec aluOut bus =>
      refine ⟨Or.inl rfl, ⟨?_, hsound.zero, hsound.saved, hsound.bounded⟩, rfl, rfl⟩
      show next = .trap ↔ m.core.trapState ≠ .none
      rw [hnone]
      exact ⟨fun htrap => absurd htrap hnext, fun hsome => absurd rfl hsome⟩
  | trapped dec aluOut bus cause hmem =>
      refine ⟨Or.inr rfl, ⟨⟨fun _ => nofun, fun _ => rfl⟩, hsound.zero, ?_, hsound.bounded⟩, rfl, rfl⟩
      intro hsaved
      rcases hsaved with hhandle | hexit
      · cases hhandle
      · cases hexit

theorem coreCycle_fetch_control (hsound : m.core.Sound) (hstate : m.core.state = .fetch)
    (h : coreCycle residue m = .ok m') :
    m'.core.phase = .decode ∧ m'.core.Sound ∧ m.core.SameRegisters m'.core := by
  have hnone := hsound.untrapped (by rw [hstate]; nofun)
  have hfetched := (coreCycle_fetched hstate h).core
  have hstate' : m'.core.state = .decode := by
    rw [hfetched]
  have hbounded : m'.core.prefetchCnt.toNat ≤ 7 := by
    rw [coreCycle_fetch_eq hstate] at h
    obtain ⟨mf, hfetch, h⟩ := Transition.exists_of_bind_ok h
    cases h
    show mf.core.prefetchCnt.toNat ≤ 7
    exact fetch_bounded hsound.bounded hfetch
  refine ⟨Core.phase_eq hstate' nofun, ⟨?_, ?_, ?_, hbounded⟩, ?_⟩
  · rw [hfetched]
    show CoreState.decode = .trap ↔ m.core.trapState ≠ .none
    rw [hnone]
    exact ⟨nofun, fun hsome => absurd rfl hsome⟩
  · rw [hfetched]
    exact hsound.zero
  · rw [hfetched]
    exact hsound.saved
  · rw [hfetched]
    exact ⟨rfl, rfl⟩

theorem writeback_control {core : Core} {cycle : BitVec 64} (hsound : core.Sound)
    (hne : core.state ≠ .trap) :
    Core.Sound { writeback core with state := .fetch, cycle := cycle } ∧
      core.WritesOne { writeback core with state := .fetch, cycle := cycle } := by
  have hnone := hsound.untrapped hne
  rw [writeback_eq]
  refine ⟨⟨?_, ?_, hsound.saved, ?_⟩, ?_⟩
  · show CoreState.fetch = .trap ↔ core.trapState ≠ .none
    rw [hnone]
    exact ⟨nofun, fun hsome => absurd rfl hsome⟩
  · show (if core.decoded.writeRd then _ else core.registers) (0 : BitVec 5) = 0
    split
    · exact regW_zero _ _ _ hsound.zero
    · exact hsound.zero
  · show (if core.decoded.isJump then (0 : BitVec 4) else core.prefetchCnt).toNat ≤ 7
    split
    · decide
    · exact hsound.bounded
  · show (if core.decoded.writeRd then _ else core.registers) = _ ∨
      ∃ rd v, (if core.decoded.writeRd then _ else core.registers) = _
    split
    · exact Or.inr ⟨_, _, rfl⟩
    · exact Or.inl rfl

theorem coreCycle_control (hsound : m.core.Sound) (h : coreCycle residue m = .ok m') :
    PhaseStep m.core.phase m'.core.phase ∧ m'.core.Sound ∧ m.core.Frame m'.core := by
  have hstage : ∀ {state next : CoreState} {p q : Phase}, m.core.state = state →
      m.Outcome next m' → state ≠ .trap → next ≠ .trap → PhaseStep p .enter → PhaseStep p q →
      (∀ core : Core, core.state = next → core.phase = q) →
      PhaseStep p m'.core.phase ∧ m'.core.Sound ∧ m.core.SameRegisters m'.core := by
    intro state next p q hstate hout hne hnext htraps hgoes hphase
    obtain ⟨hend, hsound', hregs⟩ := hout.control hsound (hstate ▸ hne) hnext
    refine ⟨?_, hsound', hregs⟩
    rcases hend with hnext' | henter
    · rw [hphase _ hnext']
      exact hgoes
    · rw [henter]
      exact htraps
  unfold Core.Frame
  cases coreCycle_cases h with
  | fetched hstate =>
      obtain ⟨hphase, hsound', hregs⟩ := coreCycle_fetch_control hsound hstate h
      rw [Core.phase_eq hstate nofun, hphase]
      exact ⟨.fetched, hsound', hregs⟩
  | decoded hstate hout =>
      rw [Core.phase_eq hstate nofun]
      exact hstage hstate hout nofun nofun .decodeTrap .decoded
        fun _ hnext => Core.phase_eq hnext nofun
  | executed hstate hout =>
      rw [Core.phase_eq hstate nofun]
      exact hstage hstate hout nofun nofun .executeTrap .executed
        fun _ hnext => Core.phase_eq hnext nofun
  | accessed hstate hout =>
      rw [Core.phase_eq hstate nofun]
      exact hstage hstate hout nofun nofun .memoryTrap .accessed
        fun _ hnext => Core.phase_eq hnext nofun
  | written hstate =>
      rw [Core.phase_eq hstate nofun]
      exact ⟨.written, writeback_control hsound (by rw [hstate]; nofun)⟩
  | entered hstate htrap =>
      have hstate' : m.entered.core.state = .trap := hstate
      unfold Core.phase
      simp only [hstate, htrap, hstate']
      exact ⟨.entered, ⟨⟨fun _ => nofun, fun _ => hstate⟩, hsound.zero,
        fun _ => hsound.zero, Nat.zero_le 7⟩, rfl, rfl⟩
  | exiting hstate htrap =>
      have hstate' : m.exiting.core.state = .trap := hstate
      unfold Core.phase
      simp only [hstate, htrap, hstate']
      exact ⟨.handled, ⟨⟨fun _ => nofun, fun _ => hstate⟩, hsound.zero,
        fun _ => hsound.saved (Or.inl htrap), hsound.bounded⟩, rfl, rfl⟩
  | resumed hstate htrap =>
      unfold Core.phase
      simp only [hstate, htrap]
      refine ⟨.exited, ⟨⟨nofun, fun hsome => absurd rfl hsome⟩, hsound.saved (Or.inr htrap), ?_,
        Nat.zero_le 7⟩, trivial⟩
      intro hsaved
      rcases hsaved with hhandle | hexit
      · cases hhandle
      · cases hexit

end Cycle

/-! ## Calls and runs -/

section Step

variable {core core' : Core} {env : Surroundings}

/-- The handler changes a register that is not x0, and leaves the phase alone. -/
theorem Core.SavesA0.keeps {mid : Core} {csr : Csr}
    (h : Core.SavesA0 { mid with csr := csr } core') (hsound : mid.Sound) :
    core'.phase = mid.phase ∧ core'.Sound ∧ mid.SameRegisters core' := by
  rw [h]
  refine ⟨rfl, ⟨hsound.trapped, hsound.zero, hsound.saved, hsound.bounded⟩, rfl, rfl⟩

theorem surroundedStep_control (hsound : core.Sound) (h : SurroundedStep core env core') :
    PhaseStep core.phase core'.phase ∧ core'.Sound ∧ core.Frame core' := by
  obtain ⟨m, hcycle, hhandler⟩ := h
  obtain ⟨hphase, hsound', hframe⟩ : PhaseStep core.phase m.core.phase ∧ m.core.Sound ∧
      core.Frame m.core := coreCycle_control hsound hcycle
  by_cases hhandle : m.core.state = .trap ∧ m.core.trapState = .handle
  · rw [if_pos hhandle] at hhandler
    obtain ⟨csr, hsaves⟩ := hhandler
    obtain ⟨hsame, hsound'', hregs, hpc⟩ := hsaves.keeps hsound'
    refine ⟨hsame ▸ hphase, hsound'', ?_⟩
    unfold Core.Frame Core.SameRegisters Core.WritesOne at hframe ⊢
    rw [hregs, hpc]
    exact hframe
  · rw [if_neg hhandle] at hhandler
    rw [hhandler]
    exact ⟨hphase, hsound', hframe⟩

/-- The thread loop of the emulator is a core in such surroundings. -/
theorem ThreadStep.surrounded {t t' : Turn} {host : Host} (h : ThreadStep emulatorTurn t host t') :
    SurroundedStep t.machine.core ⟨host.residue 0, t.machine.bus, t.machine.calls⟩
      t'.machine.core := by
  obtain ⟨m, hcycle, hturn⟩ := h.cycle
  refine ⟨m, hcycle, ?_⟩
  unfold handleTrap at hturn
  by_cases hhandle : m.core.state = .trap ∧ m.core.trapState = .handle
  · rw [if_pos hhandle] at hturn ⊢
    obtain ⟨x, hx, hturn⟩ := Transition.exists_of_bind_ok hturn
    obtain ⟨csr, hsaves⟩ := trapHandler_saves host m x hx
    cases hturn
    exact ⟨csr, hsaves⟩
  · rw [if_neg hhandle] at hturn ⊢
    cases hturn
    rfl

end Step

/-! ## An instruction -/

section Path

variable {path : Nat → Core} {n : Nat}

end Path

/-- The registers of a core as `emulator_run` sets them. -/
def emulatorRunRegs (stack : Word) : Regs := fun r =>
  if r = 1 then 0x1337c0de else if r = 2 then stack else 0

end CRiscV
