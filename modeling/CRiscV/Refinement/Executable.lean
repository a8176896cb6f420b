/-
The permission that an instruction needs: a refill goes the way of the data reads, which
ask for `MPERM_READ`, and nothing asks for `MPERM_EXEC`.
-/
import CRiscV.Refinement.ReadOnly
import CRiscV.Refinement.Refetch

namespace CRiscV

open Transition (Run)

/-! ## The word in front of the decoder -/

/-- The words left in the buffer, and the word that is to be decoded, belong to their
addresses. -/
structure Core.Delivers (core : Core) (P : Word → Word → Prop) : Prop where
  ahead : core.Ahead P
  word : core.state = .decode → P core.pc core.instruction

section Cycle

variable {m m' : Machine} {residue : BitVec 8}

/-- Only the fetch stage hands over to the decoder. -/
theorem coreCycle_to_decode (h : coreCycle residue m = .ok m') (hdecode : m'.core.state = .decode) :
    m.core.state = .fetch := by
  have hout : ∀ {next}, m.Outcome next m' → next = .decode := by
    intro next hout
    cases hout with
    | done dec aluOut bus => exact hdecode
    | trapped dec aluOut bus cause hmem => cases hdecode
  cases coreCycle_cases h with
  | fetched hstate => exact hstate
  | decoded _ hnext | executed _ hnext | accessed _ hnext => cases hout hnext
  | written | resumed => cases hdecode
  | entered hstate | exiting hstate => cases hstate.symm.trans hdecode

end Cycle

section Turns

variable {s t t' : Turn} {hosts : List Host} {host : Host} {P : Word → Word → Prop}

/-- What is decoded next has been fetched by the turn before. -/
theorem ThreadStep.to_decode (h : ThreadStep emulatorTurn t host t')
    (hdecode : t'.machine.core.state = .decode) :
    t.machine.core.state = .fetch ∧ coreCycle (host.residue 0) t.machine = .ok t'.machine := by
  obtain ⟨m, hcycle, -⟩ := h.cycle
  cases h.machine_eq_or_trap hcycle with
  | inl heq =>
      rw [heq] at hdecode ⊢
      exact ⟨coreCycle_to_decode hcycle hdecode, hcycle⟩
  | inr htrap =>
      rw [htrap] at hdecode
      cases hdecode

/-- A fetch from the buffer delivers the first of the words left in it. -/
theorem KeepStep.delivers (h : KeepStep t host t') (hdelivers : t.machine.core.Delivers P) :
    t'.machine.core.Delivers P := by
  refine ⟨h.ahead hdelivers.ahead, ?_⟩
  intro hdecode
  obtain ⟨hstep, hrefills⟩ := h
  obtain ⟨hstate, hcycle⟩ := hstep.to_decode hdecode
  have hcnt : t.machine.core.prefetchCnt ≠ 0 := fun hcnt => hrefills ⟨hstate, hcnt⟩
  have hpos : t.machine.core.prefetchCnt.toNat ≠ 0 :=
    fun hzero => hcnt (BitVec.eq_of_toNat_eq hzero)
  obtain ⟨-, hwords⟩ := hdelivers.ahead.words hstate
  obtain ⟨hj, hword⟩ := hwords 0 (by omega)
  rw [Nat.mul_zero, BitVec.add_zero] at hword
  rw [coreCycle_fetch_eq hstate] at hcycle
  obtain ⟨mf, hfetch, hcycle⟩ := Transition.exists_of_bind_ok hcycle
  obtain ⟨hbound, rfl⟩ := fetch_buffered hcnt hfetch
  rw [← Except.ok.inj hcycle]
  exact hword

/-- A refill delivers what RAM lets be read at the program counter. -/
theorem ThreadStep.delivers (h : ThreadStep emulatorTurn t host t')
    (hmain : t.machine.bus.IsMain) (hrefills : t.machine.core.Refills) :
    t'.machine.core.Delivers t.machine.bus.mmu.Serves := by
  obtain ⟨hstate, hcnt⟩ := hrefills
  obtain ⟨ram, csr, mutex, status, mmu, hbus⟩ := hmain
  obtain ⟨m, hcycle, -⟩ := h.cycle
  have hfetched := hcycle
  rw [coreCycle_fetch_eq hstate] at hfetched
  obtain ⟨mf, hfetch, hfetched⟩ := Transition.exists_of_bind_ok hfetched
  obtain ⟨-, hpc, haccepts, rfl⟩ := fetch_refilled hbus hcnt hfetch
  cases hfetched
  have hsize : (32 : Size).toNat = 32 := rfl
  have hfour : (4 : Size).toNat = 4 := rfl
  have hserves : ∀ k ≤ 7, mmu.Serves (t.machine.core.pc + BitVec.ofNat 32 (4 * k))
      (mmu.ramWord (t.machine.core.pc + BitVec.ofNat 32 (4 * k))) :=
    fun k hk => ⟨rfl, haccepts.sub (by omega) (by omega)⟩
  rw [hbus]
  constructor
  · apply h.ahead hcycle
    apply refilled_ahead hstate
    intro i
    rw [next_word_addr]
    exact hserves _ (by have := i.isLt; omega)
  · intro hdecode
    have hfirst := hserves 0 (by omega)
    rw [Nat.mul_zero, BitVec.add_zero] at hfirst
    rw [← Except.ok.inj (hcycle.symm.trans (h.to_decode hdecode).2)]
    exact hfirst

/-- The word that is to be decoded is one that RAM served at the last refill. -/
theorem delivered_run (hmain : s.machine.bus.IsMain) (hempty : ∀ P, s.machine.core.Delivers P)
    (hrun : Run (ThreadStep emulatorTurn) s hosts t) :
    ((∀ P, t.machine.core.Delivers P) ∨
        ∃ r, RefilledAt s hosts r t ∧ t.machine.core.Delivers r.machine.bus.mmu.Serves) ∧
      t.machine.bus.IsMain := by
  apply @refilled_run (fun t => ∀ P, t.machine.core.Delivers P) _ _ _ _ hmain hempty
  · intro t host t' h hstep P
    exact hstep.delivers (h P)
  · intro t host t' hmain hrefills hstep
    exact hstep.delivers hmain hrefills
  · intro r t host t' h hstep
    exact hstep.delivers h
  · exact hrun

theorem Mmu.Serves.readable {mmu : Mmu} {a v : Word} (h : mmu.Serves a v) {i : Nat} (hi : i < 4) :
    (mmu.permFrom a i).Readable :=
  permAllows_read.mp ((mmuCheckAccess_iff mmu a mpermRead (by decide)).mp h.2.2 i hi)

end Turns

/-! ## A loaded file -/

/-- A refill from readable RAM that the device window covers. -/
theorem fetch_accepted {m : Machine} {ram csr : DeviceState} {status : BusStatus} {mmu : Mmu}
    (hbus : m.bus = emulatorBus ram csr false status mmu) (hcnt : m.core.prefetchCnt = 0)
    (hcovers : (ramDevice .ready).covers (wide m.core.pc) = true)
    (haccepts : mmu.Accepts m.core.pc 32 mpermRead) :
    fetch m = .ok
      { core := m.core.refilled mmu
        bus := emulatorBus .ready csr false .ok { mmu with state := .ok }
        calls := m.calls } := by
  have hbytes : prefetchSize * widthMult .word = 32 := by decide
  have hread : ∃ buf bus, busReadMultiple (emulatorBus ram csr false status mmu) (wide m.core.pc)
      m.core.prefetchBytes prefetchSize .word = .ok (prefetchSize, buf, bus) := by
    have hblock := @readRam_block (ramDevice ram) mmu m.core.pc prefetchSize .word
      m.core.prefetchBytes (by rw [hbytes]; exact haccepts)
    have hdev : (ramDevice ram).read mmu m.core.pc m.core.prefetchBytes prefetchSize .word =
        .ok (readRam (ramDevice ram) mmu m.core.pc m.core.prefetchBytes prefetchSize .word) := rfl
    rw [busReadMultiple_routed rfl (emulatorBus_ram hcovers), setWidth_wide]
    show ∃ buf bus, (Device.read _ mmu _ _ _ _ >>= _) = _
    rw [hdev, hblock, Transition.ok_bind]
    exact ⟨_, _, if_neg (fun hne => hne rfl)⟩
  obtain ⟨buf, bus, hread⟩ := hread
  have hfetch : ∃ m', fetch m = .ok m' := by
    unfold fetch
    rw [if_pos hcnt, hbus, hread, Transition.ok_bind]
    exact ⟨_, if_neg (fun hne => hne rfl)⟩
  obtain ⟨m', hfetch⟩ := hfetch
  obtain ⟨-, -, -, hm'⟩ := fetch_refilled hbus hcnt hfetch
  rw [hfetch, hm']

theorem turn_of_fetch {m mf : Machine} (host : Host) (hstate : m.core.state = .fetch)
    (hfetch : fetch m = .ok mf) (hnext : mf.core.state = .fetch) :
    ∃ t, ThreadStep emulatorTurn (Turn.first m) host t ∧ t.machine = mf.advance .decode := by
  have hne : mf.core.state ≠ .trap := by
    rw [hnext]
    decide
  have hdecode : (mf.advance .decode).core.state = .decode := by
    unfold Machine.advance Machine.withCore
    rw [Core.advance_of_ne hne]
  have hturn : emulatorTurn host m =
      .ok { machine := mf.advance .decode, handled := none, running := true } := by
    rw [emulatorTurn_eq, coreCycle_fetch_eq hstate, hfetch, Transition.ok_bind, Transition.ok_bind]
    apply handleTrap_quiet
    rw [hdecode]
    nofun
  exact ⟨_, ⟨rfl, hturn⟩, rfl⟩

/-- The first turn of a core at the entry of the loaded file delivers its first word. -/
theorem Mmu.HoldsNote.fetched {mmu : Mmu} (h : mmu.HoldsNote) :
    ∃ t, ThreadStep emulatorTurn
        (Turn.first (startMachine cpuInitCore 0 0x10000 (fun _ => 0) (mainBus mmu))) quietHost t ∧
      t.machine.core.state = .decode ∧ t.machine.core.pc = 0x10000 ∧
      t.machine.core.instruction = 0x00000013 := by
  have haccepts : mmu.Accepts 0x10000 32 mpermRead := by
    rw [Mmu.accepts_read_iff h.sized (by decide)]
    refine ⟨h.holds (by decide), ?_⟩
    intro i hi
    rw [h.perms i hi]
    decide
  have hword : mmu.ramWord 0x10000 = 0x00000013 := by
    have hfirst : mmu.ramWord 0x10000 = Bytes.ofBytes 32 4 fun i => noteFile.byte (116 + i) :=
      Bytes.ofBytes_congr fun i hi => h.bytes i (by omega)
    exact hfirst.trans rfl
  have hfetch := @fetch_accepted (startMachine cpuInitCore 0 0x10000 (fun _ => 0) (mainBus mmu))
    _ _ _ _ (mainBus_eq mmu) rfl
    (show (ramDevice .ready).covers (wide 0x10000) = true by decide) haccepts
  obtain ⟨t, hstep, hcycle⟩ := turn_of_fetch quietHost rfl hfetch rfl
  have hfetched := congrArg Machine.core hcycle
  refine ⟨t, hstep, ?_, ?_, ?_⟩
  · rw [hfetched]
    rfl
  · rw [hfetched]
    rfl
  · rw [hfetched]
    exact hword

/-! ## Readable memory -/

/-- Only readable memory is executed, whatever has been loaded: every word that is to be
decoded was the word of RAM at the program counter when the buffer was last refilled, with
four readable bytes, and a refill from bytes that cannot be read delivers nothing. -/
theorem readable_executed (slot : Core) (coreNum : BitVec 4) (initialPc : Word) (regs : Regs)
    (ram csr : DeviceState) (mutex : Bool) (status : BusStatus) (mmu : Mmu) :
    let s := Turn.first
      (startMachine slot coreNum initialPc regs (emulatorBus ram csr mutex status mmu))
    ∀ hosts t, Run (ThreadStep emulatorTurn) s hosts t →
      (t.machine.core.state = .decode →
        ∃ r, RefilledAt s hosts r t ∧
          t.machine.core.instruction = r.machine.bus.mmu.ramWord t.machine.core.pc ∧
          ∀ i < 4, (r.machine.bus.mmu.permFrom t.machine.core.pc i).Readable) ∧
      (t.machine.core.Refills →
        (∃ i < 4, ¬ (t.machine.bus.mmu.permFrom t.machine.core.pc i).Readable) →
          ∀ host t', ThreadStep emulatorTurn t host t' → t'.machine.core.state ≠ .decode) := by
  intro s hosts t hrun
  have hmain : s.machine.bus.IsMain := ⟨ram, csr, mutex, status, mmu, rfl⟩
  have hempty : ∀ P, s.machine.core.Delivers P := fun P => ⟨Core.holds_of_empty rfl, nofun⟩
  obtain ⟨hdelivered, hmain'⟩ := delivered_run hmain hempty hrun
  constructor
  · intro hdecode
    cases hdelivered with
    | inl hnone => exact ((hnone fun _ _ => False).word hdecode).elim
    | inr hheld =>
        obtain ⟨r, hr, hdelivers⟩ := hheld
        have hserves := hdelivers.word hdecode
        exact ⟨r, hr, hserves.1, fun i hi => hserves.readable hi⟩
  · rintro hrefills ⟨i, hi, hunreadable⟩ host t' hstep hdecode
    have hserves := (hstep.delivers hmain' hrefills).word hdecode
    have hpc : t'.machine.core.pc = t.machine.core.pc := by
      rw [(coreCycle_fetched hrefills.1 (hstep.to_decode hdecode).2).core]
    rw [hpc] at hserves
    exact hunreadable (hserves.readable hi)

theorem noteFile_readable : ∃ (mmu mmu' : Mmu) (r t : Turn),
    mmuInit generousHeap 0x10000 0x1000 = .ok (some mmu) ∧
    elfLoad true (fun _ => generousHeap) noteFile mmu = .ok (some { entry := 0x10000 }, mmu') ∧
    RefilledAt (Turn.first (startMachine cpuInitCore 0 0x10000 (fun _ => 0) (mainBus mmu')))
      [quietHost] r t ∧
    t.machine.core.state = .decode ∧
    ∀ i < 4, (r.machine.bus.mmu.permFrom t.machine.core.pc i).Readable := by
  obtain ⟨mmu, hinit⟩ := generousHeap_init
  obtain ⟨mmu', hload, hnote⟩ := noteFile_loaded (mmuInit_fresh hinit)
  obtain ⟨t, hstep, hdecode, -, -⟩ := hnote.fetched
  obtain ⟨r, hr, -, hreadable⟩ := (readable_executed cpuInitCore 0 0x10000 (fun _ => 0) .ready
    .ready false .ok mmu' _ _ (Run.single hstep)).1 hdecode
  exact ⟨mmu, mmu', r, t, hinit, hload, hr, hdecode, hreadable⟩

/-- The first instruction of a segment with the flag `PF_R` only, in front of the decoder. -/
theorem noteFile_executed : ∃ (mmu mmu' : Mmu) (t : Turn),
    mmuInit generousHeap 0x10000 0x1000 = .ok (some mmu) ∧
    elfLoad true (fun _ => generousHeap) noteFile mmu = .ok (some { entry := 0x10000 }, mmu') ∧
    Run (ThreadStep emulatorTurn)
      (Turn.first (startMachine cpuInitCore 0 0x10000 (fun _ => 0) (mainBus mmu'))) [quietHost] t ∧
    t.machine.core.state = .decode ∧ t.machine.core.pc = 0x10000 ∧
    t.machine.core.instruction = 0x00000013 ∧
    ∀ i < 4, mmu'.permFrom 0x10000 i &&& mpermExec = 0 := by
  obtain ⟨mmu, hinit⟩ := generousHeap_init
  obtain ⟨mmu', hload, hnote⟩ := noteFile_loaded (mmuInit_fresh hinit)
  obtain ⟨t, hstep, hdecode, hpc, hword⟩ := hnote.fetched
  refine ⟨mmu, mmu', t, hinit, hload, Run.single hstep, hdecode, hpc, hword, ?_⟩
  intro i hi
  rw [hnote.perms i (by omega)]
  decide

end CRiscV
