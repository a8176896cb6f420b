/-
The alignment of the program counter.

No stage looks at the low bits of a jump target, and `JALR` keeps bit 0 of its sum, so
the program counter stays on a word boundary in the runs whose jumps go to one.
-/
import CRiscV.Refinement.Jump
import CRiscV.Refinement.Trap

namespace CRiscV

open Transition (Run)

def WordAligned (a : Word) : Prop := a.toNat % 4 = 0

instance (a : Word) : Decidable (WordAligned a) := inferInstanceAs (Decidable (_ = _))

theorem WordAligned.next {a : Word} (h : WordAligned a) : WordAligned (a + 4) := by
  unfold WordAligned at h ⊢
  rw [BitVec.toNat_add]
  have hfour : (4 : Word).toNat = 4 := rfl
  omega

/-- A turn in which the instruction that is decoded leaves the next word only for a
word boundary. -/
def AlignedStep (t : Turn) (host : Host) (t' : Turn) : Prop :=
  ThreadStep emulatorTurn t host t' ∧
    (t.machine.core.state = .decode → ∀ a, t.machine.core.Leaves a → WordAligned a)

/-- The invariant: the program counter, and before it the target that it will be set
to or the `mepc` that it will be set from. -/
def Core.OnWords (core : Core) : Prop :=
  WordAligned core.pc ∧
    match core.state with
    | .fetch | .decode => True
    | .execute =>
        core.decoded.isJump = false ∧ (core.decoded.optype = .j → core.decoded.opcode ≠ 0) ∧
          ∀ a, core.Jumps a → WordAligned a
    | .memory | .writeback => core.decoded.isJump = true → WordAligned core.decoded.jumpTarget
    | .trap => core.trapState = .handle ∨ core.trapState = .exit →
        ∃ a, WordAligned a ∧ core.csr mepc = wide a

section Cycle

variable {m m' : Machine} {residue : BitVec 8}

/-- A trap has not set `mepc` yet. -/
theorem onWords_of_enter {core : Core} (hpc : WordAligned core.pc) (hstate : core.state = .trap)
    (henter : core.trapState = .enter) : core.OnWords := by
  refine ⟨hpc, ?_⟩
  rw [hstate, henter]
  nofun

theorem decode_fresh (core : Core) : (decode core).decoded.isJump = false := by
  obtain ⟨funct7, imm12, imm20, hdec⟩ := decode_decoded core
  rw [hdec]
  rfl

theorem decode_coded {core : Core} (hformat : (decode core).decoded.optype = .j) :
    (decode core).decoded.opcode ≠ 0 := by
  rw [decode_optype] at hformat
  have hopcode := opcode_of_j hformat
  rw [decode_j hopcode]
  show (decodeCommon core).opcode ≠ 0
  rw [decodeCommon_opcode, hopcode]
  decide

theorem coreCycle_decode_onWords (hstate : m.core.state = .decode) (hpc : WordAligned m.core.pc)
    (hleaves : ∀ a, m.core.Leaves a → WordAligned a) (h : coreCycle residue m = .ok m') :
    m'.core.OnWords := by
  by_cases hknown : decodeTypeTable ((Isa.opcode m.core.instruction).setWidth 8) = .unknown
  · unfold coreCycle at h
    rw [hstate, decode_unknown hknown] at h
    cases h
    exact onWords_of_enter hpc rfl rfl
  · obtain ⟨dec, hdecode, -⟩ := decode_known hknown
    rw [coreCycle_decode hstate hdecode] at h
    cases h
    have hdec : dec = (decode m.core).decoded := by rw [hdecode]
    refine ⟨hpc, ?_, ?_, ?_⟩
    · show dec.isJump = false
      rw [hdec]
      exact decode_fresh m.core
    · show dec.optype = .j → dec.opcode ≠ 0
      rw [hdec]
      exact decode_coded
    · intro a hjumps
      exact hleaves a (hjumps.leaves hdec rfl rfl)

theorem coreCycle_execute_onWords (hstate : m.core.state = .execute) (hon : m.core.OnWords)
    (h : coreCycle residue m = .ok m') : m'.core.OnWords := by
  unfold Core.OnWords at hon
  rw [hstate] at hon
  obtain ⟨hpc, hfresh, hcoded, hjumps⟩ := hon
  unfold coreCycle at h
  rw [hstate] at h
  obtain ⟨core, hexecute, h⟩ := Transition.exists_of_bind_ok h
  have htarget : core.decoded.isJump = true → WordAligned core.decoded.jumpTarget :=
    fun hjump => hjumps _ (execute_jumps hfresh hcoded hexecute hjump)
  cases h
  cases execute_outcome hexecute with
  | done dec aluOut =>
      have hne : Core.state { m.core with decoded := dec, aluOut := aluOut } ≠ .trap := by
        rw [show Core.state { m.core with decoded := dec, aluOut := aluOut } = _ from hstate]
        nofun
      unfold Machine.advance Machine.withCore
      rw [Core.advance_of_ne hne]
      exact ⟨hpc, htarget⟩
  | trapped dec aluOut cause => exact onWords_of_enter hpc rfl rfl

theorem coreCycle_memory_onWords (hstate : m.core.state = .memory) (hon : m.core.OnWords)
    (h : coreCycle residue m = .ok m') : m'.core.OnWords := by
  have hdecoded := coreCycle_memory_decoded hstate h
  unfold Core.OnWords at hon
  rw [hstate] at hon
  obtain ⟨hpc, htarget⟩ := hon
  cases coreCycle_memory_outcome hstate h with
  | done dec aluOut bus =>
      have hdec : dec = m.core.decoded := hdecoded
      refine ⟨hpc, ?_⟩
      show dec.isJump = true → WordAligned dec.jumpTarget
      rw [hdec]
      exact htarget
  | trapped dec aluOut bus cause hmem => exact onWords_of_enter hpc rfl rfl

theorem coreCycle_writeback_onWords (hstate : m.core.state = .writeback) (hon : m.core.OnWords)
    (h : coreCycle residue m = .ok m') : m'.core.OnWords := by
  unfold Core.OnWords at hon
  rw [hstate] at hon
  obtain ⟨hpc, htarget⟩ := hon
  rw [coreCycle_writeback hstate, writeback_eq] at h
  cases h
  refine ⟨?_, trivial⟩
  show WordAligned (if m.core.decoded.isJump = true then m.core.decoded.jumpTarget
    else m.core.pc + 4)
  by_cases hjump : m.core.decoded.isJump = true
  · rw [if_pos hjump]
    exact htarget hjump
  · rw [if_neg hjump]
    exact hpc.next

theorem coreCycle_trap_onWords (hstate : m.core.state = .trap) (hon : m.core.OnWords)
    (h : coreCycle residue m = .ok m') : m'.core.OnWords := by
  unfold Core.OnWords at hon
  rw [hstate] at hon
  obtain ⟨hpc, hmepc⟩ := hon
  cases htrap : m.core.trapState with
  | none =>
      rw [coreCycle_untrapped hstate htrap] at h
      cases h
  | enter =>
      rw [coreCycle_enter hstate htrap] at h
      cases h
      refine ⟨hpc, ?_⟩
      rw [show m.entered.core.state = .trap from hstate]
      intro _
      exact ⟨m.core.pc, hpc, Csr.set_self m.core.csr mepc (wide m.core.pc)⟩
  | handle =>
      rw [coreCycle_handle hstate htrap] at h
      cases h
      refine ⟨hpc, ?_⟩
      rw [show m.exiting.core.state = .trap from hstate]
      intro _
      exact hmepc (Or.inl htrap)
  | exit =>
      rw [coreCycle_exit hstate htrap] at h
      cases h
      obtain ⟨a, ha, hcsr⟩ := hmepc (Or.inr htrap)
      refine ⟨?_, trivial⟩
      show WordAligned ((csrReadClear32 m.core.csr mepc 0).1 + 4)
      rw [csrReadClear32_wide hcsr]
      exact ha.next

theorem coreCycle_onWords (hon : m.core.OnWords)
    (hleaves : m.core.state = .decode → ∀ a, m.core.Leaves a → WordAligned a)
    (h : coreCycle residue m = .ok m') : m'.core.OnWords := by
  cases hstate : m.core.state with
  | fetch =>
      have hfetched := (coreCycle_fetched hstate h).core
      rw [hfetched]
      exact ⟨hon.1, trivial⟩
  | decode => exact coreCycle_decode_onWords hstate hon.1 (hleaves hstate) h
  | execute => exact coreCycle_execute_onWords hstate hon h
  | memory => exact coreCycle_memory_onWords hstate hon h
  | writeback => exact coreCycle_writeback_onWords hstate hon h
  | trap => exact coreCycle_trap_onWords hstate hon h

end Cycle

/-! ## Turns and runs -/

section Run

variable {s t t' : Turn} {host : Host} {hosts : List Host}

theorem AlignedStep.onWords (hon : t.machine.core.OnWords) (h : AlignedStep t host t') :
    t'.machine.core.OnWords := by
  obtain ⟨hstep, hleaves⟩ := h
  obtain ⟨m, hcycle, hturn⟩ := hstep.cycle
  have hon' : m.core.OnWords := coreCycle_onWords hon hleaves hcycle
  unfold handleTrap at hturn
  by_cases hhandle : m.core.state = .trap ∧ m.core.trapState = .handle
  · rw [if_pos hhandle] at hturn
    obtain ⟨r, hr, hturn⟩ := Transition.exists_of_bind_ok hturn
    cases hturn
    unfold Core.OnWords at hon'
    rw [hhandle.1] at hon'
    obtain ⟨hpc, hmepc⟩ := hon'
    obtain ⟨a, ha, hcsr⟩ := hmepc (Or.inl hhandle.2)
    have hcsr' : r.2.core.csr mepc = wide a := trapHandler_mepc hcsr r hr
    obtain ⟨csr, hsaves⟩ := trapHandler_saves host m r hr
    have hstate : r.2.core.state = .trap := by
      rw [hsaves]
      exact hhandle.1
    refine ⟨?_, ?_⟩
    · show WordAligned r.2.core.pc
      rw [hsaves]
      exact hpc
    · show match r.2.core.state with
        | .fetch | .decode => True
        | .execute => _
        | .memory | .writeback => _
        | .trap => _
      rw [hstate]
      intro _
      exact ⟨a, ha, hcsr'⟩
  · rw [if_neg hhandle] at hturn
    cases hturn
    exact hon'

/-- In every run whose jumps go to word boundaries, and that starts at one, each fetch
is at one. -/
theorem fetch_aligned (hstart : s.machine.core.state = .fetch)
    (hentry : WordAligned s.machine.core.pc) (hrun : Run AlignedStep s hosts t) :
    WordAligned t.machine.core.pc := by
  have hon : s.machine.core.OnWords := by
    refine ⟨hentry, ?_⟩
    rw [hstart]
    trivial
  have hends : t.machine.core.OnWords := by
    induction hrun with
    | nil => exact hon
    | snoc _ hstep ih => exact hstep.onWords ih
  exact hends.1

end Run

/-- A core in front of a jump. -/
def jumpMachine (w : Word) : Machine := bufferedMachine w fun _ => 0

/-- The turns of `jal x0, 8`, each of which keeps to word boundaries. -/
theorem jumpMachine_run :
    ∃ t, Run AlignedStep (Turn.first (jumpMachine 0x0080006f))
        [quietHost, quietHost, quietHost, quietHost, quietHost] t ∧
      t.machine.core.state = .fetch ∧ t.machine.core.pc = 0x10008 := by
  have hleaves : ∀ t : Turn, t.machine.core.instruction = 0x0080006f →
      t.machine.core.pc = 0x10000 → ∀ a, t.machine.core.Leaves a → WordAligned a := by
    intro t hword hpc a hleave
    cases hleave with
    | jal rd offset word =>
        rw [hword] at word
        cases word
        rw [hpc]
        decide
    | jalr rd rs1 offset word =>
        rw [hword] at word
        cases word
    | branch op rs1 rs2 offset word taken =>
        rw [hword] at word
        cases word
    | unlabelled word invalid latch =>
        rw [hword] at word
        cases word
  refine ⟨_, .snoc (.snoc (.snoc (.snoc (.snoc .nil ⟨⟨rfl, rfl⟩, nofun⟩) ⟨⟨rfl, rfl⟩, ?_⟩)
    ⟨⟨rfl, rfl⟩, nofun⟩) ⟨⟨rfl, rfl⟩, nofun⟩) ⟨⟨rfl, rfl⟩, nofun⟩, rfl, rfl⟩
  exact fun _ => hleaves _ rfl rfl

theorem jumpMachine_aligned :
    ∃ t, Run AlignedStep (Turn.first (jumpMachine 0x0080006f))
        [quietHost, quietHost, quietHost, quietHost, quietHost] t ∧
      t.machine.core.pc ≠ ramStart ∧ WordAligned t.machine.core.pc := by
  obtain ⟨t, hrun, hfetch, hpc⟩ := jumpMachine_run
  refine ⟨t, hrun, ?_, fetch_aligned rfl (by decide) hrun⟩
  rw [hpc]
  decide

/-- `jal x0, 2` goes to the middle of a word. -/
theorem jumpMachine_misaligned :
    WordAligned (jumpMachine 0x0020006f).core.pc ∧
      ∃ t, Run (ThreadStep emulatorTurn) (Turn.first (jumpMachine 0x0020006f))
          [quietHost, quietHost, quietHost, quietHost, quietHost] t ∧
        t.machine.core.state = .fetch ∧ ¬ WordAligned t.machine.core.pc := by
  have hruns : ∃ t, Run (ThreadStep emulatorTurn) (Turn.first (jumpMachine 0x0020006f))
      [quietHost, quietHost, quietHost, quietHost, quietHost] t ∧
        t.machine.core.state = .fetch ∧ t.machine.core.pc = 0x10002 :=
    ⟨_, .snoc (.snoc (.snoc (.snoc (.snoc .nil ⟨rfl, rfl⟩) ⟨rfl, rfl⟩) ⟨rfl, rfl⟩) ⟨rfl, rfl⟩)
      ⟨rfl, rfl⟩, rfl, rfl⟩
  refine ⟨by decide, ?_⟩
  obtain ⟨t, hrun, hfetch, hpc⟩ := hruns
  refine ⟨t, hrun, hfetch, ?_⟩
  rw [hpc]
  decide

end CRiscV
