/-
The prefetch buffer over whole runs: it holds the words that RAM held when it was
last refilled.
-/
import CRiscV.Emulator.Agreement

namespace CRiscV

open Transition (Run)

/-- The word that starts at an address of RAM. -/
def Mmu.ramWord (mmu : Mmu) (a : Vaddr) : Word := Bytes.ofBytes 32 4 (mmu.byteFrom a)

/-! ## A refill -/

theorem ramDevice_covers {state : DeviceState} {a : Vaddr}
    (h : (ramDevice state).covers (wide a) = true) : a.toNat < 0x7ffff := by
  have hlt := ramDevice_covers_lt h
  rwa [wide_toNat] at hlt

/-- A word inside a block that was read from `a` on is the word of RAM at its
address. -/
theorem wordAt_block {mmu : Mmu} {a : Vaddr} {n k : Nat} {buf : Nat → BitVec 8}
    (hbase : mmu.base.toNat ≤ a.toNat) (haddr : a.toNat + n < 2 ^ 32) (hk : 4 * k + 4 ≤ n) :
    wordAt (Span.copy 0 n (mmu.byteFrom a) buf) k = mmu.ramWord (a + BitVec.ofNat 32 (4 * k)) := by
  apply Bytes.ofBytes_congr
  intro i hi
  rw [Span.copy_of_mem (Nat.zero_le _) (by omega)]
  unfold Mmu.byteFrom
  rw [Mmu.offset_add hbase (by omega)]
  congr 1
  omega

section Refill

variable {m m' : Machine} {ram csr : DeviceState} {mutex : Bool} {status : BusStatus} {mmu : Mmu}

/-- The core after a refill at its program counter. -/
def Core.refilled (core : Core) (mmu : Mmu) : Core :=
  { core with
    instruction := mmu.ramWord core.pc
    prefetch := fun k => mmu.ramWord (core.pc + BitVec.ofNat 32 (4 * (k.val + 1)))
    prefetchCnt := 7 }

/-- A block that the bus delivers in full is one that RAM has accepted. -/
theorem busReadMultiple_delivered {a : Vaddr} {dst buf : Nat → BitVec 8} {count : Size}
    {aw : Width} {bus : Bus} (hcount : count ≠ 0)
    (h : busReadMultiple (emulatorBus ram csr mutex status mmu) (wide a) dst count aw =
      .ok (count, buf, bus)) :
    mutex = false ∧ a.toNat < 0x7ffff ∧ mmu.Accepts a (count * widthMult aw) mpermRead ∧
      buf = Span.copy 0 (count * widthMult aw).toNat (mmu.byteFrom a) dst ∧
      bus = emulatorBus .ready csr false .ok { mmu with state := .ok } := by
  cases mutex with
  | true =>
      rw [busReadMultiple_locked rfl] at h
      cases h
  | false =>
      cases hcovers : (ramDevice .ready).covers (wide a) with
      | true =>
          rw [busReadMultiple_routed rfl (emulatorBus_ram hcovers), setWidth_wide] at h
          obtain ⟨x, hdev, h⟩ := Transition.exists_of_bind_ok h
          have hx : readRam (ramDevice ram) mmu a dst count aw = x := Except.ok.inj hdev
          by_cases haccepts : mmu.Accepts a (count * widthMult aw) mpermRead
          · rw [readRam_block dst haccepts] at hx
            subst hx
            rw [if_neg (fun hne => hne rfl)] at h
            cases h
            exact ⟨rfl, ramDevice_covers hcovers, haccepts, rfl, rfl⟩
          · obtain ⟨state, hrefused⟩ := readRam_refused (ramDevice ram) dst haccepts
            rw [hrefused] at hx
            subst hx
            rw [if_pos (fun hzero => hcount hzero.symm)] at h
            cases h
            exact absurd rfl hcount
      | false =>
          cases hcsr : (csrMmioDevice .ready).covers (wide a) with
          | true =>
              rw [busReadMultiple_routed rfl (emulatorBus_csr hcovers hcsr)] at h
              cases h
          | false =>
              rw [busReadMultiple_unmapped rfl (emulatorBus_unmapped hcovers hcsr)] at h
              cases h
              exact absurd rfl hcount

theorem fetch_refilled (hbus : m.bus = emulatorBus ram csr mutex status mmu)
    (hcnt : m.core.prefetchCnt = 0) (h : fetch m = .ok m') :
    mutex = false ∧ m.core.pc.toNat < 0x7ffff ∧ mmu.Accepts m.core.pc 32 mpermRead ∧
      m' = { core := m.core.refilled mmu
             bus := emulatorBus .ready csr false .ok { mmu with state := .ok }
             calls := m.calls } := by
  have hbytes : prefetchSize * widthMult .word = 32 := by decide
  unfold fetch at h
  rw [if_pos hcnt, hbus] at h
  obtain ⟨⟨n, buf, bus⟩, hread, h⟩ := Transition.exists_of_bind_ok h
  simp only at h
  by_cases hn : n = prefetchSize
  · rw [if_neg (fun hne => hne hn)] at h
    cases h
    rw [hn] at hread
    obtain ⟨hmutex, hpc, haccepts, hbuf, hbus'⟩ := busReadMultiple_delivered (by decide) hread
    rw [hbytes] at haccepts hbuf
    refine ⟨hmutex, hpc, haccepts, ?_⟩
    have hwords : ∀ k < 8, wordAt buf k = mmu.ramWord (m.core.pc + BitVec.ofNat 32 (4 * k)) := by
      intro k hk
      rw [hbuf]
      have hsize : (32 : Size).toNat = 32 := rfl
      exact wordAt_block haccepts.base_le (by omega) (by omega)
    have hfirst := hwords 0 (by omega)
    rw [Nat.mul_zero, BitVec.add_zero] at hfirst
    have hrest : (fun k : Fin 7 => wordAt buf (k.val + 1)) = fun k =>
        mmu.ramWord (m.core.pc + BitVec.ofNat 32 (4 * (k.val + 1))) :=
      funext fun k => hwords (k.val + 1) (by have := k.isLt; omega)
    unfold Core.refilled
    rw [← hfirst, ← hrest, hbus']
  · rw [if_pos hn] at h
    cases h

end Refill

/-! ## The emulator's bus stays the emulator's -/

theorem Machine.mirrors_self {m : Machine} (h : m.bus.IsMain) : m.Mirrors m :=
  ⟨.refl m.core, h.agrees, rfl⟩

theorem coreCycle_isMain {m m' : Machine} {residue : BitVec 8} (hmain : m.bus.IsMain)
    (h : coreCycle residue m = .ok m') : m'.bus.IsMain := by
  by_cases hstate : m.core.state = .fetch
  · rw [coreCycle_fetch_eq hstate] at h
    obtain ⟨mf, hfetch, h⟩ := Transition.exists_of_bind_ok h
    cases h
    show mf.bus.IsMain
    by_cases hcnt : m.core.prefetchCnt = 0
    · obtain ⟨ram, csr, mutex, status, mmu, hbus⟩ := hmain
      obtain ⟨-, -, -, hmf⟩ := fetch_refilled hbus hcnt hfetch
      rw [hmf]
      exact ⟨_, _, _, _, _, rfl⟩
    · obtain ⟨hbound, rfl⟩ := fetch_buffered hcnt hfetch
      exact hmain
  · obtain ⟨n', -, hmirrors⟩ := coreCycle_mirrors (Machine.mirrors_self hmain) hstate residue m' h
    exact hmirrors.bus.isMain

theorem ThreadStep.isMain {t t' : Turn} {host : Host} (h : ThreadStep emulatorTurn t host t')
    (hmain : t.machine.bus.IsMain) : t'.machine.bus.IsMain := by
  obtain ⟨m, hcycle, hturn⟩ := h.cycle
  obtain ⟨u, -, hmirrors⟩ :=
    handleTrap_mirrors host (Machine.mirrors_self (coreCycle_isMain hmain hcycle)) t' hturn
  exact hmirrors.machine.bus.isMain

theorem isMain_run {s t : Turn} {hosts : List Host} (hmain : s.machine.bus.IsMain)
    (hrun : Run (ThreadStep emulatorTurn) s hosts t) : t.machine.bus.IsMain := by
  induction hrun with
  | nil => exact hmain
  | snoc _ hstep ih => exact hstep.isMain ih

/-! ## Runs -/

/-- A turn whose cycle does not refill the buffer. -/
def KeepStep (t : Turn) (host : Host) (t' : Turn) : Prop :=
  ThreadStep emulatorTurn t host t' ∧ ¬ t.machine.core.Refills

/-- The last refill on the way from `s` to `t` began at `r`. -/
structure RefilledAt (s : Turn) (hosts : List Host) (r t : Turn) : Prop where
  refills : r.machine.core.Refills
  turns : ∃ before host since r', hosts = before ++ host :: since ∧
    Run (ThreadStep emulatorTurn) s before r ∧ ThreadStep emulatorTurn r host r' ∧
    Run KeepStep r' since t

theorem RefilledAt.snoc {s r t t' : Turn} {hosts : List Host} {host : Host}
    (h : RefilledAt s hosts r t) (hstep : KeepStep t host t') :
    RefilledAt s (hosts ++ [host]) r t' := by
  obtain ⟨before, host', since, r', hhosts, hbefore, hrefill, hsince⟩ := h.turns
  refine ⟨h.refills, before, host', since ++ [host], r', ?_, hbefore, hrefill, hsince.snoc hstep⟩
  rw [hhosts, List.append_assoc, List.cons_append]

/-- The buffer is empty, or holds the words of RAM at its last refill. -/
def Prefetched (s : Turn) (hosts : List Host) (t : Turn) : Prop :=
  (∀ P, t.machine.core.Ahead P) ∨
    ∃ r, RefilledAt s hosts r t ∧
      t.machine.core.Ahead fun a v => v = r.machine.bus.mmu.ramWord a

/-- The handler changes the machine in a trap only, where the next cycle but one
flushes the buffer. -/
theorem ThreadStep.machine_eq_or_trap {t t' : Turn} {host : Host} {m : Machine}
    (h : ThreadStep emulatorTurn t host t')
    (hcycle : coreCycle (host.residue 0) t.machine = .ok m) :
    t'.machine = m ∨ t'.machine.core.state = .trap := by
  obtain ⟨m', hcycle', hturn⟩ := h.cycle
  rw [hcycle] at hcycle'
  cases hcycle'
  unfold handleTrap at hturn
  by_cases hhandle : m.core.state = .trap ∧ m.core.trapState = .handle
  · rw [if_pos hhandle] at hturn
    obtain ⟨x, hx, hturn⟩ := Transition.exists_of_bind_ok hturn
    obtain ⟨csr, hsaves⟩ := trapHandler_saves host m x hx
    cases hturn
    right
    rw [hsaves]
    exact hhandle.1
  · rw [if_neg hhandle] at hturn
    cases hturn
    exact Or.inl rfl

theorem ThreadStep.ahead {t t' : Turn} {host : Host} {P : Word → Word → Prop} {m : Machine}
    (h : ThreadStep emulatorTurn t host t')
    (hcycle : coreCycle (host.residue 0) t.machine = .ok m) (hahead : m.core.Ahead P) :
    t'.machine.core.Ahead P := by
  cases h.machine_eq_or_trap hcycle with
  | inl heq => rwa [heq]
  | inr htrap => exact Core.ahead_of_trap htrap

/-- Right behind a refill, the buffer holds the words of RAM that follow. -/
theorem refilled_ahead {core : Core} {mmu : Mmu} {P : Word → Word → Prop}
    (hstate : core.state = .fetch)
    (hwords : ∀ i : Fin 7, P (core.pc + 4 + BitVec.ofNat 32 (4 * i.val))
      (mmu.ramWord (core.pc + BitVec.ofNat 32 (4 * (i.val + 1))))) :
    ((core.refilled mmu).advance .decode).Ahead P := by
  have hne : (core.refilled mmu).state ≠ .trap := by
    show core.state ≠ .trap
    rw [hstate]
    decide
  rw [Core.advance_of_ne hne]
  have hcnt : (7 : BitVec 4).toNat = 7 := rfl
  refine ⟨Nat.le_of_eq hcnt, ?_⟩
  intro i hi
  show P (core.pc + 4 + BitVec.ofNat 32 (4 * (i.val + (7 : BitVec 4).toNat - 7))) _
  rw [hcnt, Nat.add_sub_cancel]
  exact hwords i

theorem next_word_addr (a : Word) (i : Nat) :
    a + 4 + BitVec.ofNat 32 (4 * i) = a + BitVec.ofNat 32 (4 * (i + 1)) := by
  rw [BitVec.add_assoc]
  congr 1
  apply BitVec.eq_of_toNat_eq
  rw [BitVec.toNat_add, BitVec.toNat_ofNat, BitVec.toNat_ofNat]
  have hfour : (4 : Word).toNat = 4 := rfl
  omega

/-- What holds until the first refill, and what each refill establishes until the next. -/
theorem refilled_run {E : Turn → Prop} {K : Turn → Turn → Prop} {s t : Turn} {hosts : List Host}
    (hmain : s.machine.bus.IsMain) (h0 : E s)
    (hempty : ∀ {t host t'}, E t → KeepStep t host t' → E t')
    (hrefill : ∀ {t host t'}, t.machine.bus.IsMain → t.machine.core.Refills →
      ThreadStep emulatorTurn t host t' → K t t')
    (hkeep : ∀ {r t host t'}, K r t → KeepStep t host t' → K r t')
    (hrun : Run (ThreadStep emulatorTurn) s hosts t) :
    (E t ∨ ∃ r, RefilledAt s hosts r t ∧ K r t) ∧ t.machine.bus.IsMain := by
  induction hrun with
  | nil => exact ⟨Or.inl h0, hmain⟩
  | @snoc hosts t t' host hrun hstep ih =>
      obtain ⟨hheld, hmain⟩ := ih
      refine ⟨?_, hstep.isMain hmain⟩
      by_cases hrefills : t.machine.core.Refills
      · right
        exact ⟨t, ⟨hrefills, hosts, host, [], t', rfl, hrun, hstep, .nil⟩,
          hrefill hmain hrefills hstep⟩
      · cases hheld with
        | inl h => exact Or.inl (hempty h ⟨hstep, hrefills⟩)
        | inr h =>
            obtain ⟨r, hr, hK⟩ := h
            exact Or.inr ⟨r, hr.snoc ⟨hstep, hrefills⟩, hkeep hK ⟨hstep, hrefills⟩⟩

theorem KeepStep.ahead {t t' : Turn} {host : Host} {P : Word → Word → Prop}
    (h : KeepStep t host t') (hahead : t.machine.core.Ahead P) : t'.machine.core.Ahead P := by
  obtain ⟨hstep, hrefills⟩ := h
  obtain ⟨m, hcycle, -⟩ := hstep.cycle
  exact hstep.ahead hcycle (coreCycle_ahead hcycle hrefills hahead)

theorem ThreadStep.prefetches {t t' : Turn} {host : Host} (hmain : t.machine.bus.IsMain)
    (hrefills : t.machine.core.Refills) (hstep : ThreadStep emulatorTurn t host t') :
    t'.machine.core.Ahead fun a v => v = t.machine.bus.mmu.ramWord a := by
  obtain ⟨m, hcycle, -⟩ := hstep.cycle
  obtain ⟨hstate, hcnt⟩ := hrefills
  obtain ⟨ram, csr, mutex, status, mmu, hbus⟩ := hmain
  apply hstep.ahead hcycle
  rw [coreCycle_fetch_eq hstate] at hcycle
  obtain ⟨mf, hfetch, hcycle⟩ := Transition.exists_of_bind_ok hcycle
  obtain ⟨-, -, -, rfl⟩ := fetch_refilled hbus hcnt hfetch
  cases hcycle
  apply refilled_ahead hstate
  intro i
  rw [hbus, next_word_addr]
  rfl

theorem prefetched_run {s t : Turn} {hosts : List Host} (hmain : s.machine.bus.IsMain)
    (hempty : ∀ P, s.machine.core.Ahead P) (hrun : Run (ThreadStep emulatorTurn) s hosts t) :
    Prefetched s hosts t ∧ t.machine.bus.IsMain := by
  apply @refilled_run (fun t => ∀ P, t.machine.core.Ahead P) _ _ _ _ hmain hempty
  · intro t host t' h hstep P
    exact hstep.ahead (h P)
  · intro t host t' hmain hrefills hstep
    exact hstep.prefetches hmain hrefills
  · intro r t host t' h hstep
    exact hstep.ahead h
  · exact hrun

end CRiscV
