/-
A core that reads each instruction from RAM, and the runs in which the prefetch
buffer cannot be told from it.
-/
import CRiscV.Refinement.Prefetch

namespace CRiscV

open Transition (Run Observed)

/-! ## The reference -/

def Device.isRam (dev : Device) : Bool :=
  match dev.driver with
  | .ram => true
  | .csr | .other _ => false

/-- RAM, with its position on the bus. -/
def Bus.findRam (bus : Bus) : Option (Nat × Device) :=
  (bus.mmioDevices.findIdx? (·.isRam)).bind fun i => bus.mmioDevices[i]?.map fun dev => (i, dev)

/-- A fetch that reads the single word at the program counter from RAM. -/
def refetch (m : Machine) : Except Abort Machine :=
  match m.bus.findRam with
  | none => .error .nullHandler
  | some (i, dev) =>
      let (n, buf, dev, mmu) := readRam dev m.bus.mmu m.core.pc (fun _ => 0) 1 .word
      if n ≠ 1 then .error .assertion
      else
        .ok { m with
          core := { m.core with instruction := wordAt buf 0 }
          bus := m.bus.serve i dev mmu }

/-- `core_cycle` with this fetch. -/
def refetchCycle (residue : BitVec 8) (m : Machine) : Except Abort Machine :=
  match m.core.state with
  | .fetch => do
      let m ← refetch m
      return m.advance .decode
  | .trap | .decode | .execute | .memory | .writeback => coreCycle residue m

/-- The thread loop around it. -/
def refetchTurn (host : Host) (m : Machine) : Except Abort Turn := do
  let m ← refetchCycle (host.residue 0) m
  handleTrap (some trapHandler) host m

/-- What is compared after each turn. -/
structure Observation where
  pc : Word
  instruction : Word
  registers : Regs
  ram : Nat → BitVec 8

def Turn.observe (t : Turn) : Observation :=
  { pc := t.machine.core.pc
    instruction := t.machine.core.instruction
    registers := t.machine.core.registers
    ram := t.machine.bus.mmu.data }

/-- The core is about to store to a word that has been prefetched and not yet
fetched. -/
def Machine.StoresAhead (m : Machine) : Prop :=
  m.core.state = .memory ∧ m.core.decoded.readMem = false ∧ m.core.decoded.writeMem = true ∧
  m.bus.Stores m.core.decoded.memOffset m.core.decoded.memAccessWidth ∧
  ∃ j < m.core.prefetchCnt.toNat, ∃ i < 4, ∃ k < m.core.decoded.memAccessWidth.size,
    m.core.pc + 4 + BitVec.ofNat 32 (4 * j) + BitVec.ofNat 32 i =
      m.core.decoded.memOffset + BitVec.ofNat 32 k

/-- A turn without such a store. -/
def UndisturbedStep (t : Turn) (host : Host) (t' : Turn) : Prop :=
  ThreadStep emulatorTurn t host t' ∧ ¬ t.machine.StoresAhead

/-! ## Words that RAM serves -/

/-- `v` is the word of RAM at `a`, and RAM lets it be read. -/
def Mmu.Serves (mmu : Mmu) (a v : Word) : Prop :=
  v = mmu.ramWord a ∧ mmu.Accepts a 4 mpermRead

section Serves

variable {mmu mmu' : Mmu} {a v w : Word}

theorem Mmu.Serves.same (h : mmu.Serves a v) (hsame : mmu.SameMemory mmu') : mmu'.Serves a v := by
  obtain ⟨state, rfl⟩ := hsame
  exact h

/-- A byte of RAM outside a written range is as it was. -/
theorem Mmu.written_byteFrom {src : Nat → BitVec 8} {n : Size} {i : Nat}
    (ha : mmu.base.toNat ≤ a.toNat) (hw : mmu.base.toNat ≤ w.toNat)
    (hdisj : ∀ k < n.toNat, a + BitVec.ofNat 32 i ≠ w + BitVec.ofNat 32 k) :
    (mmu.written src w n).byteFrom a i = mmu.byteFrom a i := by
  apply Span.copy_of_not_mem
  show (mmu.offset a).toNat + i < (mmu.offset w).toNat ∨
    (mmu.offset w).toNat + n.toNat ≤ (mmu.offset a).toNat + i
  rw [Mmu.offset_toNat ha, Mmu.offset_toNat hw]
  by_contra hin
  apply hdisj (a.toNat + i - w.toNat) (by omega)
  apply BitVec.eq_of_toNat_eq
  rw [BitVec.toNat_add, BitVec.toNat_add, BitVec.toNat_ofNat, BitVec.toNat_ofNat, Nat.add_mod_mod,
    Nat.add_mod_mod]
  congr 1
  omega

theorem Mmu.written_readable {src : Nat → BitVec 8} {n : Size} {i : Nat}
    (h : (mmu.permFrom a i).Readable) : ((mmu.written src w n).permFrom a i).Readable := by
  show (Span.update _ _ _ mmu.perm ((mmu.offset a).toNat + i)).Readable
  by_cases hin : (mmu.offset w).toNat ≤ (mmu.offset a).toNat + i ∧
      (mmu.offset a).toNat + i < (mmu.offsetEnd w n).toNat
  · rw [Span.update_of_mem hin.1 hin.2]
    exact permWritten_readable (Or.inl h)
  · rw [Span.update_of_not_mem (by omega)]
    exact h

/-- A write beside a word leaves it served. -/
theorem Mmu.Serves.written {src : Nat → BitVec 8} {n : Size} (h : mmu.Serves a v)
    (hw : mmu.base.toNat ≤ w.toNat)
    (hdisj : ∀ i < 4, ∀ k < n.toNat, a + BitVec.ofNat 32 i ≠ w + BitVec.ofNat 32 k) :
    (mmu.written src w n).Serves a v := by
  obtain ⟨hword, haccepts⟩ := h
  have hbase := haccepts.base_le
  obtain ⟨hout, hcheck⟩ := haccepts
  have hfour : (4 : Size).toNat < 2 ^ 63 := by decide
  rw [mmuCheckAccess_iff mmu a mpermRead hfour] at hcheck
  refine ⟨?_, hout, ?_⟩
  · rw [hword]
    apply Bytes.ofBytes_congr
    intro i hi
    exact (Mmu.written_byteFrom hbase hw (hdisj i hi)).symm
  · rw [mmuCheckAccess_iff _ a mpermRead hfour]
    intro i hi
    exact permAllows_read.mpr (Mmu.written_readable (permAllows_read.mp (hcheck i hi)))

end Serves

/-! ## The cycles of the two cores -/

section Cycle

variable {m m' n : Machine} {residue : BitVec 8}

theorem refetchCycle_fetch_eq (hstate : m.core.state = .fetch) (residue : BitVec 8) :
    refetchCycle residue m = refetch m >>= fun m' => .ok (m'.advance .decode) := by
  unfold refetchCycle
  rw [hstate]
  rfl

theorem refetchCycle_of_ne (hstate : m.core.state ≠ .fetch) (residue : BitVec 8) :
    refetchCycle residue m = coreCycle residue m := by
  unfold refetchCycle
  cases hm : m.core.state with
  | fetch => exact absurd hm hstate
  | trap | decode | execute | memory | writeback => rfl

variable {core : Core} {ram csr : DeviceState} {mutex : Bool} {status : BusStatus} {mmu : Mmu}
  {calls : List HostCall}

/-- The reference reads a word that RAM serves. -/
theorem refetchCycle_accepted (hstate : core.state = .fetch)
    (haccepts : mmu.Accepts core.pc 4 mpermRead) :
    refetchCycle residue
        { core := core, bus := emulatorBus ram csr mutex status mmu, calls := calls } =
      .ok (Machine.advance .decode
        { core := { core with instruction := mmu.ramWord core.pc }
          bus := emulatorBus .ready csr mutex status { mmu with state := .ok }
          calls := calls }) := by
  have hbytes : (1 : Size) * widthMult .word = 4 := by decide
  have hread : readRam (ramDevice ram) mmu core.pc (fun _ => 0) 1 .word =
      (1, Span.copy 0 4 (mmu.byteFrom core.pc) fun _ => 0, ramDevice .ready,
        { mmu with state := .ok }) := by
    rw [readRam_block _ (by rw [hbytes]; exact haccepts), hbytes]
    rfl
  have hword : wordAt (Span.copy 0 4 (mmu.byteFrom core.pc) fun _ => 0) 0 =
      mmu.ramWord core.pc := by
    apply Bytes.ofBytes_congr
    intro i hi
    rw [Nat.mul_zero, Nat.zero_add]
    exact Span.copy_of_mem (Nat.zero_le i) hi
  have hrefetch : ∀ x, readRam (ramDevice ram) mmu core.pc (fun _ => 0) 1 .word = x →
      refetch { core := core, bus := emulatorBus ram csr mutex status mmu, calls := calls } =
        if x.1 ≠ 1 then .error .assertion
        else .ok
          { core := { core with instruction := wordAt x.2.1 0 }
            bus := (emulatorBus ram csr mutex status mmu).serve 0 x.2.2.1 x.2.2.2
            calls := calls } := by
    intro x hx
    subst hx
    rfl
  rw [refetchCycle_fetch_eq hstate, hrefetch _ hread, if_neg (fun hne => hne rfl),
    Transition.ok_bind]
  simp only [hword]
  rfl

/-- The two fetches, at machines that mirror each other. -/
theorem fetch_refetch (hmirrors : m.Mirrors n) (hstate : m.core.state = .fetch)
    (hahead : m.core.Ahead m.bus.mmu.Serves) (h : coreCycle residue m = .ok m') :
    ∃ n', refetchCycle residue n = .ok n' ∧ m'.Mirrors n' ∧ m'.core.Ahead m'.bus.mmu.Serves := by
  obtain ⟨mcore, mbus, mcalls⟩ := m
  obtain ⟨ncore, nbus, ncalls⟩ := n
  obtain ⟨⟨words, cnt, hcore⟩, hbus, hcalls⟩ := hmirrors
  simp only at hcore hbus hcalls hstate hahead
  subst hcore hcalls
  have hkept := h
  rw [coreCycle_fetch_eq hstate] at h
  obtain ⟨mf, hfetch, h⟩ := Transition.exists_of_bind_ok h
  cases h
  cases hbus with
  | mk ram ram' csr mutex status status' mmu state hram =>
    by_cases hcnt : mcore.prefetchCnt = 0
    · obtain ⟨hmutex, hpc, haccepts, rfl⟩ := fetch_refilled rfl hcnt hfetch
      have hsize : (32 : Size).toNat = 32 := rfl
      have hfour : (4 : Size).toNat = 4 := rfl
      have hinside : ∀ k ≤ 28, mmu.Accepts (mcore.pc + BitVec.ofNat 32 k) 4 mpermRead :=
        fun k hk => haccepts.sub (by omega) (by omega)
      have hfirst := hinside 0 (by omega)
      rw [BitVec.add_zero] at hfirst
      refine ⟨_, refetchCycle_accepted hstate hfirst, ?_, ?_⟩
      · apply Machine.Mirrors.advance
        refine ⟨⟨words, cnt, rfl⟩, ?_, rfl⟩
        rw [hmutex]
        exact .mk .ready .ready csr false .ok status' { mmu with state := .ok } .ok (Or.inl rfl)
      · apply refilled_ahead hstate
        intro i
        rw [next_word_addr]
        exact ⟨rfl, hinside _ (by have := i.isLt; omega)⟩
    · have hheld := hahead
      unfold Core.Ahead at hheld
      rw [hstate] at hheld
      obtain ⟨hle, hheld⟩ := hheld
      obtain ⟨hbound, rfl⟩ := fetch_buffered hcnt hfetch
      have hserved := hheld ⟨7 - mcore.prefetchCnt.toNat, hbound⟩ (by simp only; omega)
      have hindex : 4 * (7 - mcore.prefetchCnt.toNat + mcore.prefetchCnt.toNat - 7) = 0 := by omega
      simp only [hindex, BitVec.add_zero] at hserved
      obtain ⟨hword, haccepts⟩ := hserved
      have hnotRefill : ¬ Core.Refills mcore := fun hrefill => hcnt hrefill.2
      refine ⟨_, refetchCycle_accepted hstate haccepts, ?_, ?_⟩
      · apply Machine.Mirrors.advance
        refine ⟨⟨words, cnt, ?_⟩, .mk ram .ready csr mutex status status' mmu .ok (Or.inr rfl), rfl⟩
        rw [hword]
        rfl
      · exact coreCycle_ahead hkept hnotRefill hahead

/-- The bus is used by two stages only. -/
theorem coreCycle_bus (hfetch : m.core.state ≠ .fetch) (hmemory : m.core.state ≠ .memory)
    (h : coreCycle residue m = .ok m') : m'.bus = m.bus := by
  cases coreCycle_cases h with
  | fetched hstate => exact absurd hstate hfetch
  | accessed hstate => exact absurd hstate hmemory
  | decoded hstate hout hbus | executed hstate hout hbus => exact hbus
  | written | entered | exiting | resumed => rfl

/-- A store beside the prefetched words leaves them all served. -/
theorem Core.Holds.written {src : Nat → BitVec 8}
    (h : m.core.Holds m.bus.mmu.Serves (m.core.pc + 4)) (hstate : m.core.state = .memory)
    (hread : m.core.decoded.readMem = false) (hwrite : m.core.decoded.writeMem = true)
    (hram : m.bus.Stores m.core.decoded.memOffset m.core.decoded.memAccessWidth)
    (hstores : ¬ m.StoresAhead) :
    m.core.Holds (m.bus.mmu.written src m.core.decoded.memOffset
      m.core.decoded.memAccessWidth.bytes).Serves (m.core.pc + 4) := by
  refine ⟨h.1, ?_⟩
  intro i hi
  apply (h.2 i hi).written hram.accepts.base_le
  intro b hb k hk heq
  rw [Width.bytes_toNat] at hk
  have := i.isLt
  exact hstores ⟨hstate, hread, hwrite, hram, _, by omega, b, hb, k, hk, heq⟩

/-- A cycle other than a fetch leaves in the buffer words that RAM serves. -/
theorem coreCycle_serves (hfetch : m.core.state ≠ .fetch) (hstores : ¬ m.StoresAhead)
    (hahead : m.core.Ahead m.bus.mmu.Serves) (h : coreCycle residue m = .ok m') :
    m'.core.Ahead m'.bus.mmu.Serves := by
  have hkept : m'.core.Ahead m.bus.mmu.Serves :=
    coreCycle_ahead h (fun hrefill => hfetch hrefill.1) hahead
  by_cases hstate : m.core.state = .memory
  · cases coreCycle_memory_mmu hstate h with
    | inl hsame => exact hkept.mono fun _ _ hserves => hserves.same hsame
    | inr hwritten =>
        obtain ⟨hread, hwrite, hram, hmmu⟩ := hwritten
        unfold Core.Ahead at hahead
        rw [hstate] at hahead
        rw [hmmu]
        exact (coreCycle_memory_outcome hstate h).ahead (Or.inr (Or.inr rfl))
          (hahead.written hstate hread hwrite hram hstores)
  · rw [coreCycle_bus hfetch hstate h]
    exact hkept

/-- One cycle of the two cores. -/
theorem coreCycle_refetchCycle (hmirrors : m.Mirrors n) (hstores : ¬ m.StoresAhead)
    (hahead : m.core.Ahead m.bus.mmu.Serves) (h : coreCycle residue m = .ok m') :
    ∃ n', refetchCycle residue n = .ok n' ∧ m'.Mirrors n' ∧ m'.core.Ahead m'.bus.mmu.Serves := by
  by_cases hstate : m.core.state = .fetch
  · exact fetch_refetch hmirrors hstate hahead h
  · obtain ⟨n', hcycle, hmirrors'⟩ := coreCycle_mirrors hmirrors hstate residue m' h
    have hstate' : n.core.state ≠ .fetch := by
      obtain ⟨words, cnt, hcore⟩ := hmirrors.core
      rw [hcore]
      exact hstate
    refine ⟨n', ?_, hmirrors', coreCycle_serves hstate hstores hahead h⟩
    rw [refetchCycle_of_ne hstate']
    exact hcycle

end Cycle

/-! ## Runs -/

/-- How the runs of the two cores stay together. -/
structure Turn.Shadows (t u : Turn) : Prop where
  mirrors : t.Mirrors u
  ahead : t.machine.core.Ahead t.machine.bus.mmu.Serves

theorem Turn.Shadows.observe {t u : Turn} (h : t.Shadows u) : u.observe = t.observe := by
  obtain ⟨words, cnt, hcore⟩ := h.mirrors.machine.core
  obtain ⟨state, hmmu⟩ := h.mirrors.machine.memory
  unfold Turn.observe
  rw [hcore, hmmu]

/-- The handler may write to RAM, in a trap only: the buffer is flushed before the
next fetch. -/
theorem Turn.Shadows.step {t u t' : Turn} {host : Host} (h : t.Shadows u)
    (hstep : UndisturbedStep t host t') :
    ∃ u', ThreadStep refetchTurn u host u' ∧ t'.Shadows u' := by
  obtain ⟨hstep, hstores⟩ := hstep
  obtain ⟨m, hcycle, hhandle⟩ := hstep.cycle
  obtain ⟨n, hcycle', hmirrors, hahead⟩ :=
    coreCycle_refetchCycle h.mirrors.machine hstores h.ahead hcycle
  obtain ⟨u', hhandle', hturn⟩ := handleTrap_mirrors host hmirrors t' hhandle
  refine ⟨u', ⟨?_, ?_⟩, hturn, ?_⟩
  · rw [h.mirrors.running]
    exact hstep.1
  · unfold refetchTurn
    rw [hcycle']
    exact hhandle'
  · cases hstep.machine_eq_or_trap hcycle with
    | inl heq => rwa [heq]
    | inr htrap => exact Core.ahead_of_trap htrap

/-- The words that are left at a fetch, by the addresses from the program counter
on. -/
theorem Core.Ahead.words {core : Core} {P : Word → Word → Prop} (h : core.Ahead P)
    (hstate : core.state = .fetch) :
    core.prefetchCnt.toNat ≤ 7 ∧ ∀ j < core.prefetchCnt.toNat,
      ∃ hj : 7 - core.prefetchCnt.toNat + j < 7,
        P (core.pc + BitVec.ofNat 32 (4 * j))
          (core.prefetch ⟨7 - core.prefetchCnt.toNat + j, hj⟩) := by
  unfold Core.Ahead at h
  rw [hstate] at h
  obtain ⟨hle, hwords⟩ := h
  refine ⟨hle, ?_⟩
  intro j hj
  have hbound : 7 - core.prefetchCnt.toNat + j < 7 := by omega
  have hword := hwords ⟨7 - core.prefetchCnt.toNat + j, hbound⟩ (by simp only; omega)
  have hindex : 7 - core.prefetchCnt.toNat + j + core.prefetchCnt.toNat - 7 = j := by omega
  rw [hindex] at hword
  exact ⟨hbound, hword⟩

section Start

variable {s t : Turn} {hosts : List Host}

/-- At a fetch the buffer holds the words of RAM at the last refill. -/
theorem prefetched_words (hmain : s.machine.bus.IsMain) (hempty : ∀ P, s.machine.core.Ahead P)
    (hrun : Run (ThreadStep emulatorTurn) s hosts t) (hstate : t.machine.core.state = .fetch)
    (hcnt : t.machine.core.prefetchCnt ≠ 0) :
    t.machine.core.prefetchCnt.toNat ≤ 7 ∧
      ∃ r, RefilledAt s hosts r t ∧ ∀ j < t.machine.core.prefetchCnt.toNat,
        ∃ hj : 7 - t.machine.core.prefetchCnt.toNat + j < 7,
          t.machine.core.prefetch ⟨7 - t.machine.core.prefetchCnt.toNat + j, hj⟩ =
            r.machine.bus.mmu.ramWord (t.machine.core.pc + BitVec.ofNat 32 (4 * j)) := by
  have hpos : t.machine.core.prefetchCnt.toNat ≠ 0 :=
    fun hzero => hcnt (BitVec.eq_of_toNat_eq hzero)
  cases (prefetched_run hmain hempty hrun).1 with
  | inl hnone =>
      -- a buffer whose words belong to nothing is empty
      obtain ⟨hle, hwords⟩ := (hnone fun _ _ => False).words hstate
      obtain ⟨hj, hword⟩ := hwords 0 (by omega)
      exact hword.elim
  | inr hheld =>
      obtain ⟨r, hr, hahead⟩ := hheld
      obtain ⟨hle, hwords⟩ := hahead.words hstate
      exact ⟨hle, r, hr, hwords⟩

theorem refetch_run (hmain : s.machine.bus.IsMain) (hempty : ∀ P, s.machine.core.Ahead P)
    {labels : List (Host × Observation)}
    (hrun : Run (Observed UndisturbedStep Turn.observe) s labels t) :
    ∃ u, Run (Observed (ThreadStep refetchTurn) Turn.observe) s labels u := by
  have hstart : s.Shadows s := ⟨⟨Machine.mirrors_self hmain, rfl⟩, hempty _⟩
  obtain ⟨u, hrun', -⟩ :=
    hrun.observed_simulation (fun h hstep => h.step hstep) (fun h => h.observe) hstart
  exact ⟨u, hrun'⟩

end Start

/-- A core behind `core_init`, with registers that its owner has set, on the
emulator's bus. -/
def startMachine (slot : Core) (coreNum : BitVec 4) (initialPc : Word) (regs : Regs) (bus : Bus) :
    Machine :=
  { core := { coreInit slot coreNum initialPc with registers := regs }, bus := bus, calls := [] }

/-- The prefetch buffer is invisible: at every fetch it holds the words that RAM held
when it was last refilled, and every run without a store into the words still to be
fetched is one of a core that reads each instruction from RAM. -/
theorem prefetch_invisible (slot : Core) (coreNum : BitVec 4) (initialPc : Word) (regs : Regs)
    (ram csr : DeviceState) (mutex : Bool) (status : BusStatus) (mmu : Mmu) :
    let s := Turn.first
      (startMachine slot coreNum initialPc regs (emulatorBus ram csr mutex status mmu))
    (∀ hosts t, Run (ThreadStep emulatorTurn) s hosts t →
      t.machine.core.state = .fetch → t.machine.core.prefetchCnt ≠ 0 →
      t.machine.core.prefetchCnt.toNat ≤ 7 ∧
      ∃ r, RefilledAt s hosts r t ∧ ∀ j < t.machine.core.prefetchCnt.toNat,
        ∃ hj : 7 - t.machine.core.prefetchCnt.toNat + j < 7,
          t.machine.core.prefetch ⟨7 - t.machine.core.prefetchCnt.toNat + j, hj⟩ =
            r.machine.bus.mmu.ramWord (t.machine.core.pc + BitVec.ofNat 32 (4 * j))) ∧
    ∀ labels t, Run (Observed UndisturbedStep Turn.observe) s labels t →
      ∃ u, Run (Observed (ThreadStep refetchTurn) Turn.observe) s labels u := by
  intro s
  have hmain : s.machine.bus.IsMain := ⟨ram, csr, mutex, status, mmu, rfl⟩
  have hempty : ∀ P, s.machine.core.Ahead P := fun P => Core.holds_of_empty rfl
  refine ⟨?_, ?_⟩
  · intro hosts t hrun hstate hcnt
    exact prefetched_words hmain hempty hrun hstate hcnt
  · intro labels t hrun
    exact refetch_run hmain hempty hrun

end CRiscV
