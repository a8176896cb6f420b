/-
The refill of the prefetch buffer beside the fetch of one word.

A refill reads eight words in one transfer, which RAM accepts as a whole or not at all,
and whatever refuses it ends the emulator instead of the instruction.
-/
import CRiscV.Refinement.Alignment
import CRiscV.Refinement.Prefetch

namespace CRiscV

open Transition (Run)

/-- The `n` bytes from `a` on are bytes of RAM that can be read. -/
structure Bus.Reads (bus : Bus) (a : Vaddr) (n : Nat) : Prop where
  routed : ∃ i dev, bus.Routes (wide a) i dev ∧ dev.IsRam
  held : bus.mmu.Holds a n
  readable : ∀ i < n, (bus.mmu.permFrom a i).Readable

section Refill

variable {m : Machine}

theorem Bus.Reads.sub {bus : Bus} {a : Vaddr} {n k : Nat} (h : bus.Reads a n) (hk : k ≤ n) :
    bus.Reads a k := by
  obtain ⟨hlo, hhi⟩ := h.held
  exact ⟨h.routed, ⟨hlo, by omega⟩, fun i hi => h.readable i (by omega)⟩

/-- What the transfer of a refill asks of the MMU. -/
theorem refill_accepts_iff (hsized : m.bus.mmu.size.toNat < 2 ^ 63) :
    m.bus.mmu.Accepts m.core.pc 32 mpermRead ↔
      m.bus.mmu.Holds m.core.pc 32 ∧ ∀ i < 32, (m.bus.mmu.permFrom m.core.pc i).Readable :=
  Mmu.accepts_read_iff hsized (by decide)

theorem Bus.Reads.of_accepts (hrouted : ∃ i dev, m.bus.Routes (wide m.core.pc) i dev ∧ dev.IsRam)
    (haccepts : m.bus.mmu.Accepts m.core.pc 32 mpermRead) : m.bus.Reads m.core.pc 32 := by
  refine ⟨hrouted, haccepts.holds (by decide), ?_⟩
  intro i hi
  exact permAllows_read.mp ((mmuCheckAccess_iff _ _ _ (by decide)).mp haccepts.2 i hi)

theorem Device.IsRam.read_eq {dev : Device} (hram : dev.IsRam) (mmu : Mmu) (a : Word)
    (dst : Nat → BitVec 8) (count : Size) (aw : Width) :
    dev.read mmu a dst count aw = .ok (readRam dev mmu a dst count aw) := by
  unfold Device.read
  rw [hram.1]

/-- A refill that RAM accepts delivers the word at the program counter. -/
theorem fetch_block_accepted {i : Nat} {dev : Device} (hcnt : m.core.prefetchCnt = 0)
    (hfree : m.bus.mutex = false) (hroute : m.bus.Routes (wide m.core.pc) i dev)
    (hram : dev.IsRam) (haccepts : m.bus.mmu.Accepts m.core.pc 32 mpermRead) :
    ∃ m', fetch m = .ok m' ∧ m'.core.instruction = m.bus.mmu.ramWord m.core.pc := by
  have hblock := @readRam_block dev m.bus.mmu m.core.pc prefetchSize .word
    m.core.prefetchBytes haccepts
  have hword : wordAt (Span.copy 0 32 (m.bus.mmu.byteFrom m.core.pc) m.core.prefetchBytes) 0 =
      m.bus.mmu.ramWord m.core.pc := by
    apply Bytes.ofBytes_congr
    intro k hk
    rw [Span.copy_of_mem (Nat.zero_le _) (by omega)]
    congr 1
    omega
  unfold fetch
  rw [if_pos hcnt, busReadMultiple_routed hfree hroute, setWidth_wide, hram.read_eq, hblock]
  exact ⟨_, rfl, hword⟩

/-- And one that it refuses fails the assertion behind the trap. -/
theorem fetch_block_refused {i : Nat} {dev : Device} (hcnt : m.core.prefetchCnt = 0)
    (hfree : m.bus.mutex = false) (hroute : m.bus.Routes (wide m.core.pc) i dev)
    (hram : dev.IsRam) (hrefuses : ¬ m.bus.mmu.Accepts m.core.pc 32 mpermRead) :
    fetch m = .error .assertion := by
  obtain ⟨state, hread⟩ := @readRam_refused dev m.bus.mmu m.core.pc prefetchSize .word
    m.core.prefetchBytes hrefuses
  unfold fetch
  rw [if_pos hcnt, busReadMultiple_routed hfree hroute, setWidth_wide, hram.read_eq, hread]
  rfl

/-- In the window of RAM, a fetch delivers the word at the program counter exactly where
the four bytes of that word can be read, if and only if the seven words behind it can be
read wherever it can. -/
theorem fetch_exact_iff {i : Nat} {dev : Device} (hcnt : m.core.prefetchCnt = 0)
    (hfree : m.bus.mutex = false) (hroute : m.bus.Routes (wide m.core.pc) i dev)
    (hram : dev.IsRam) (hsized : m.bus.mmu.size.toNat < 2 ^ 63) :
    ((∃ m', fetch m = .ok m' ∧ m'.core.instruction = m.bus.mmu.ramWord m.core.pc) ↔
        m.bus.Reads m.core.pc 4) ↔
      (m.bus.Reads m.core.pc 4 → m.bus.Reads m.core.pc 32) := by
  have hfetch : (∃ m', fetch m = .ok m' ∧ m'.core.instruction = m.bus.mmu.ramWord m.core.pc) ↔
      m.bus.Reads m.core.pc 32 := by
    constructor
    · rintro ⟨m', hm', -⟩
      by_cases haccepts : m.bus.mmu.Accepts m.core.pc 32 mpermRead
      · exact .of_accepts ⟨i, dev, hroute, hram⟩ haccepts
      · rw [fetch_block_refused hcnt hfree hroute hram haccepts] at hm'
        cases hm'
    · intro hreads
      exact fetch_block_accepted hcnt hfree hroute hram
        ((refill_accepts_iff hsized).mpr ⟨hreads.held, hreads.readable⟩)
  rw [hfetch]
  constructor
  · intro hiff
    exact hiff.mpr
  · intro hblock
    exact ⟨fun hreads => hreads.sub (by decide), hblock⟩

/-! ## Words that cannot be read -/

/-- The trap that a fetch from the program counter should cause. -/
structure Machine.TrapsFetch (m m' : Machine) : Prop where
  state : m'.core.state = .trap
  trapState : m'.core.trapState = .enter
  cause : m'.core.csr mcause = wide
    (if WordAligned m.core.pc then TrapCause.instructionAccessFault
      else TrapCause.instructionAddrMisalign).code
  registers : m'.core.registers = m.core.registers
  pc : m'.core.pc = m.core.pc
  memory : m.bus.mmu.SameMemory m'.bus.mmu

/-- How a refill from words that cannot be read ends: a locked bus is waited for, the CSR
device has no handler for blocks, and any other answer fails the assertion. -/
def Machine.refillAbort (m : Machine) : Abort :=
  if m.bus.mutex then .deadlock
  else if (csrMmioDevice .ready).covers (wide m.core.pc) then .nullHandler
  else .assertion

theorem fetch_unreadable (hmain : m.bus.IsMain) (hcnt : m.core.prefetchCnt = 0)
    (hbad : ¬ m.bus.Reads m.core.pc 4) : fetch m = .error m.refillAbort := by
  obtain ⟨ram, csr, mutex, status, mmu, hbus⟩ := hmain
  unfold Machine.refillAbort
  cases mutex with
  | true =>
      have hlocked : m.bus.mutex = true := by rw [hbus]; rfl
      unfold fetch
      rw [if_pos hcnt, busReadMultiple_locked hlocked, if_pos hlocked]
      rfl
  | false =>
      have hfree : m.bus.mutex = false := by rw [hbus]; rfl
      rw [hfree, if_neg Bool.false_ne_true]
      cases hram : (ramDevice .ready).covers (wide m.core.pc) with
      | true =>
          have hroute : m.bus.Routes (wide m.core.pc) 0 (ramDevice ram) := by
            rw [hbus]
            exact emulatorBus_ram hram
          have hrefuses : ¬ m.bus.mmu.Accepts m.core.pc 32 mpermRead := by
            intro haccepts
            exact hbad ((Bus.Reads.of_accepts ⟨0, _, hroute, rfl, rfl⟩ haccepts).sub (by decide))
          rw [fetch_block_refused hcnt hfree hroute ⟨rfl, rfl⟩ hrefuses, csr_not_ram hram]
          rfl
      | false =>
          cases hcsr : (csrMmioDevice .ready).covers (wide m.core.pc) with
          | true =>
              have hroute : m.bus.Routes (wide m.core.pc) 1 (csrMmioDevice csr) := by
                rw [hbus]
                exact emulatorBus_csr hram hcsr
              unfold fetch
              rw [if_pos hcnt, busReadMultiple_routed hfree hroute]
              rfl
          | false =>
              have hnone : m.bus.Unmapped (wide m.core.pc) := by
                rw [hbus]
                exact emulatorBus_unmapped hram hcsr
              unfold fetch
              rw [if_pos hcnt, busReadMultiple_unmapped hfree hnone]
              rfl

/-- No fetch of a word that cannot be read comes to its trap: the cycle does not return. -/
theorem unreadableFetch_aborts (hmain : m.bus.IsMain) (hstate : m.core.state = .fetch)
    (hcnt : m.core.prefetchCnt = 0) (hbad : ¬ m.bus.Reads m.core.pc 4) (residue : BitVec 8) :
    coreCycle residue m = .error m.refillAbort ∧
      ¬ ∃ m', coreCycle residue m = .ok m' ∧ m.TrapsFetch m' := by
  have haborts : coreCycle residue m = .error m.refillAbort := by
    rw [coreCycle_fetch_eq hstate, fetch_unreadable hmain hcnt hbad]
    rfl
  refine ⟨haborts, ?_⟩
  rintro ⟨m', hm', -⟩
  rw [haborts] at hm'
  cases hm'

end Refill

/-! ## A core at an entry point -/

/-- A core that starts at `pc`, in front of RAM that can be read and written throughout. -/
def entryMachine (pc : Word) : Machine :=
  { core := coreInit cpuInitCore 0 pc, bus := mainBus (programMmu []), calls := [] }

theorem entryMachine_reads {pc : Word} {n : Nat}
    (hcovers : (ramDevice .ready).covers (wide pc) = true)
    (hheld : (programMmu []).Holds pc n) : (entryMachine pc).bus.Reads pc n := by
  refine ⟨⟨0, ramDevice .ready, mainBus_routes _ hcovers, rfl, rfl⟩, hheld, ?_⟩
  intro i hi
  show Perm.Readable (mpermRead ||| mpermWrite)
  decide

/-- The last place where a whole refill fits. -/
theorem lastBlock_fetched :
    (∃ m', fetch (entryMachine 0x7ffdc) = .ok m' ∧
        m'.core.instruction = (programMmu []).ramWord 0x7ffdc) ↔
      (entryMachine 0x7ffdc).bus.Reads 0x7ffdc 4 := by
  have hcovers : (ramDevice .ready).covers (wide 0x7ffdc) = true := by decide
  exact (@fetch_exact_iff (entryMachine 0x7ffdc) 0 (ramDevice .ready) rfl rfl
    (mainBus_routes _ hcovers) ⟨rfl, rfl⟩ (by decide)).mpr fun _ =>
      entryMachine_reads hcovers (show 0x10000 ≤ 0x7ffdc ∧ _ by decide)

/-- The last word of RAM can be read but not fetched. -/
theorem lastWord_refused :
    (entryMachine 0x7fff8).bus.Reads 0x7fff8 4 ∧ ¬ ∃ m', fetch (entryMachine 0x7fff8) = .ok m' := by
  have hcovers : (ramDevice .ready).covers (wide 0x7fff8) = true := by decide
  refine ⟨entryMachine_reads hcovers (show 0x10000 ≤ 0x7fff8 ∧ _ by decide), ?_⟩
  have hrefuses : ¬ (programMmu []).Accepts 0x7fff8 32 mpermRead := by
    intro haccepts
    exact absurd haccepts.1 (by decide)
  have hfetch := @fetch_block_refused (entryMachine 0x7fff8) 0 (ramDevice .ready) rfl rfl
    (mainBus_routes _ hcovers) ⟨rfl, rfl⟩ hrefuses
  rw [hfetch]
  rintro ⟨m', hm'⟩
  cases hm'

theorem zeroPc_unreadable {m : Machine} (hmain : m.bus.IsMain) : ¬ m.bus.Reads 0 4 := by
  intro hreads
  obtain ⟨ram, csr, mutex, status, mmu, hbus⟩ := hmain
  obtain ⟨i, dev, hroute, -⟩ := hreads.routed
  have hnone : m.bus.Unmapped (wide 0) := by
    rw [hbus]
    exact emulatorBus_unmapped (by decide) (by decide)
  unfold Bus.Routes at hroute
  rw [hnone] at hroute
  cases hroute

/-- An entry point on no device. -/
theorem zeroEntry_aborts :
    coreCycle 0 (entryMachine 0) = .error .assertion ∧
      ¬ ∃ m', coreCycle 0 (entryMachine 0) = .ok m' ∧ (entryMachine 0).TrapsFetch m' := by
  have hmain : (entryMachine 0).bus.IsMain := ⟨_, _, _, _, _, mainBus_eq _⟩
  exact unreadableFetch_aborts hmain rfl rfl (zeroPc_unreadable hmain) 0

/-- `jalr x0, x0, 0` ends the emulator. -/
theorem zeroJump_aborts :
    ∃ t, Run (ThreadStep emulatorTurn) (Turn.first (programMachine [0x00000067] fun _ => 0))
        [quietHost, quietHost, quietHost, quietHost, quietHost] t ∧
      t.machine.core.state = .fetch ∧ t.machine.core.prefetchCnt = 0 ∧
      ¬ t.machine.bus.Reads t.machine.core.pc 4 ∧
      ¬ ∃ m', coreCycle 0 t.machine = .ok m' ∧ t.machine.TrapsFetch m' := by
  have hruns : ∃ t, Run (ThreadStep emulatorTurn)
      (Turn.first (programMachine [0x00000067] fun _ => 0))
      [quietHost, quietHost, quietHost, quietHost, quietHost] t ∧
        t.machine.core.state = .fetch ∧ t.machine.core.prefetchCnt = 0 ∧ t.machine.core.pc = 0 :=
    ⟨_, .snoc (.snoc (.snoc (.snoc (.snoc .nil ⟨rfl, rfl⟩) ⟨rfl, rfl⟩) ⟨rfl, rfl⟩) ⟨rfl, rfl⟩)
      ⟨rfl, rfl⟩, rfl, rfl, rfl⟩
  obtain ⟨t, hrun, hstate, hcnt, hpc⟩ := hruns
  have hmain := isMain_run ⟨_, _, _, _, _, mainBus_eq _⟩ hrun
  have hbad : ¬ t.machine.bus.Reads t.machine.core.pc 4 := by
    rw [hpc]
    exact zeroPc_unreadable hmain
  refine ⟨t, hrun, hstate, hcnt, hbad, ?_⟩
  rintro ⟨m', hm', -⟩
  rw [coreCycle_fetch_eq hstate, fetch_unreadable hmain hcnt hbad] at hm'
  cases hm'

end CRiscV
