/-
The prefetch buffer.

Only the fetch stage reads it, so cores that differ in their buffers take the same
steps elsewhere.  A cycle that does not refill the buffer keeps what it holds in
front of the program counter.
-/
import CRiscV.Core.Stages

namespace CRiscV

open Transition (Follows follows_ok follows_error follows_ite follows_bind)

/-- Cores that differ in the prefetch buffer at most. -/
def Core.SamePipe (core core' : Core) : Prop :=
  ∃ words cnt, core' = { core with prefetch := words, prefetchCnt := cnt }

section SamePipe

variable {core core' : Core}

theorem Core.SamePipe.refl (core : Core) : core.SamePipe core :=
  ⟨core.prefetch, core.prefetchCnt, rfl⟩

theorem causeTrap_samePipe (h : core.SamePipe core') (cause : TrapCause) :
    (causeTrap core cause).SamePipe (causeTrap core' cause) := by
  obtain ⟨words, cnt, rfl⟩ := h
  exact ⟨words, cnt, rfl⟩

theorem advance_samePipe (h : core.SamePipe core') (next : CoreState) :
    (core.advance next).SamePipe (core'.advance next) := by
  obtain ⟨words, cnt, rfl⟩ := h
  exact ⟨words, cnt, rfl⟩

theorem decode_samePipe (h : core.SamePipe core') : (decode core).SamePipe (decode core') := by
  obtain ⟨words, cnt, rfl⟩ := h
  refine ⟨words, cnt, ?_⟩
  have hcommon : decodeCommon { core with prefetch := words, prefetchCnt := cnt } =
      decodeCommon core := rfl
  unfold decode
  rw [hcommon]
  cases hoptype : (decodeCommon core).optype with
  | unknown => simp only [hoptype]; rfl
  | r | i | s | b | u | j | c => simp only [hoptype]

theorem executeI_samePipe (core : Core) (words : Fin 7 → Word) (cnt : BitVec 4) :
    Follows Core.SamePipe (executeI core)
      (executeI { core with prefetch := words, prefetchCnt := cnt }) := by
  unfold executeI
  dsimp only
  generalize core.decoded.seImm12 = seImm12
  generalize core.decoded.op3 = op
  repeat' apply follows_ite Iff.rfl
  all_goals first | exact follows_ok ⟨words, cnt, rfl⟩ | exact follows_error _ _

theorem executeS_samePipe (core : Core) (words : Fin 7 → Word) (cnt : BitVec 4) :
    Follows Core.SamePipe (executeS core)
      (executeS { core with prefetch := words, prefetchCnt := cnt }) := by
  unfold executeS
  dsimp only
  generalize core.decoded.op2 = op
  repeat' apply follows_ite Iff.rfl
  all_goals first | exact follows_ok ⟨words, cnt, rfl⟩ | exact follows_error _ _

theorem execute_samePipe (h : core.SamePipe core') :
    Follows Core.SamePipe (execute core) (execute core') := by
  obtain ⟨words, cnt, rfl⟩ := h
  unfold execute
  cases hoptype : core.decoded.optype with
  | unknown =>
      simp only [hoptype]
      exact follows_ok ⟨words, cnt, rfl⟩
  | r =>
      simp only [hoptype]
      cases executeR core.decoded.op3 core.decoded.rs1v core.decoded.rs2v with
      | some aluOut => exact follows_ok ⟨words, cnt, rfl⟩
      | none => exact follows_ok ⟨words, cnt, rfl⟩
  | i =>
      simp only [hoptype]
      exact executeI_samePipe _ words cnt
  | s =>
      simp only [hoptype]
      exact executeS_samePipe _ words cnt
  | b =>
      simp only [hoptype]
      exact follows_ok ⟨words, cnt, rfl⟩
  | u =>
      simp only [hoptype]
      refine follows_ite Iff.rfl (follows_ok ⟨words, cnt, rfl⟩) ?_
      exact follows_ite Iff.rfl (follows_ok ⟨words, cnt, rfl⟩) (follows_error _ _)
  | j =>
      simp only [hoptype]
      refine follows_ite Iff.rfl (follows_ok ⟨words, cnt, rfl⟩) ?_
      exact follows_ite Iff.rfl (follows_ok ⟨words, cnt, rfl⟩) (follows_error _ _)
  | c =>
      simp only [hoptype]
      exact follows_ite Iff.rfl (follows_ok ⟨words, cnt, rfl⟩) (follows_ok ⟨words, cnt, rfl⟩)

theorem writeback_samePipe (h : core.SamePipe core') :
    (writeback core).SamePipe (writeback core') := by
  obtain ⟨words, cnt, rfl⟩ := h
  rw [writeback_eq, writeback_eq]
  exact ⟨words, if core.decoded.isJump then 0 else cnt, rfl⟩

theorem trap_samePipe (h : core.SamePipe core') :
    Follows Core.SamePipe (trap core) (trap core') := by
  obtain ⟨words, cnt, rfl⟩ := h
  unfold trap
  cases htrap : core.trapState with
  | none =>
      exact follows_error _ _
  | enter =>
      exact follows_ok ⟨words, 0, rfl⟩
  | handle =>
      exact follows_ok ⟨words, cnt, rfl⟩
  | exit =>
      exact follows_ok ⟨words, 0, rfl⟩

end SamePipe

/-! ## What the buffer holds -/

/-- Each word left in the buffer belongs, by `P`, to its address when the first of
them belongs to `a`. -/
def Core.Holds (core : Core) (P : Word → Word → Prop) (a : Word) : Prop :=
  core.prefetchCnt.toNat ≤ 7 ∧ ∀ i : Fin 7, 7 ≤ i.val + core.prefetchCnt.toNat →
    P (a + BitVec.ofNat 32 (4 * (i.val + core.prefetchCnt.toNat - 7))) (core.prefetch i)

/-- The words left in the buffer belong to the addresses that the program counter
goes to next.  A trap flushes the buffer before the next fetch. -/
def Core.Ahead (core : Core) (P : Word → Word → Prop) : Prop :=
  match core.state with
  | .fetch => core.Holds P core.pc
  | .trap => True
  | .decode | .execute | .memory | .writeback => core.Holds P (core.pc + 4)

/-- The next cycle refills the buffer. -/
def Core.Refills (core : Core) : Prop := core.state = .fetch ∧ core.prefetchCnt = 0

section Buffer

variable {core core' : Core} {P Q : Word → Word → Prop} {a : Word}

theorem Core.holds_of_empty (h : core.prefetchCnt = 0) : core.Holds P a := by
  have hcnt : core.prefetchCnt.toNat = 0 := by
    rw [h]
    rfl
  refine ⟨by omega, ?_⟩
  intro i hi
  have := i.isLt
  omega

theorem Core.Holds.mono (h : core.Holds P a) (hPQ : ∀ a v, P a v → Q a v) : core.Holds Q a :=
  ⟨h.1, fun i hi => hPQ _ _ (h.2 i hi)⟩

theorem Core.Holds.congr (h : core.Holds P a) (hwords : core'.prefetch = core.prefetch)
    (hcnt : core'.prefetchCnt = core.prefetchCnt) : core'.Holds P a := by
  unfold Core.Holds
  rw [hwords, hcnt]
  exact h

theorem Core.Ahead.mono (h : core.Ahead P) (hPQ : ∀ a v, P a v → Q a v) : core.Ahead Q := by
  unfold Core.Ahead at h ⊢
  cases hstate : core.state with
  | trap => trivial
  | fetch | decode | execute | memory | writeback =>
      simp only [hstate] at h
      exact h.mono hPQ

theorem Core.ahead_of_trap (h : core.state = .trap) : core.Ahead P := by
  unfold Core.Ahead
  rw [h]
  trivial

/-- One word fewer is left, and the next one belongs to the next address. -/
theorem Core.Holds.shift (h : core.Holds P a) (hcnt : core.prefetchCnt ≠ 0)
    (hwords : core'.prefetch = core.prefetch)
    (hcnt' : core'.prefetchCnt = core.prefetchCnt - 1) : core'.Holds P (a + 4) := by
  have hpos : core.prefetchCnt.toNat ≠ 0 := fun hzero => hcnt (BitVec.eq_of_toNat_eq hzero)
  have hlt := core.prefetchCnt.isLt
  have hpred : core'.prefetchCnt.toNat = core.prefetchCnt.toNat - 1 := by
    rw [hcnt', BitVec.toNat_sub]
    have hone : (1 : BitVec 4).toNat = 1 := rfl
    omega
  obtain ⟨hle, hholds⟩ := h
  refine ⟨by omega, ?_⟩
  intro i hi
  rw [hpred] at hi ⊢
  have hword := hholds i (by omega)
  have haddr : a + 4 + BitVec.ofNat 32 (4 * (i.val + (core.prefetchCnt.toNat - 1) - 7)) =
      a + BitVec.ofNat 32 (4 * (i.val + core.prefetchCnt.toNat - 7)) := by
    rw [BitVec.add_assoc]
    congr 1
    apply BitVec.eq_of_toNat_eq
    rw [BitVec.toNat_add, BitVec.toNat_ofNat, BitVec.toNat_ofNat]
    have hfour : (4 : Word).toNat = 4 := rfl
    omega
  rw [haddr, hwords]
  exact hword

end Buffer

/-! ## Cycles that do not refill -/

section Cycles

variable {m m' : Machine} {residue : BitVec 8} {P : Word → Word → Prop}

/-- A fetch from the buffer. -/
theorem fetch_buffered (hcnt : m.core.prefetchCnt ≠ 0) (h : fetch m = .ok m') :
    ∃ hbound : 7 - m.core.prefetchCnt.toNat < 7,
      m' = { m with core := { m.core with
        instruction := m.core.prefetch ⟨7 - m.core.prefetchCnt.toNat, hbound⟩
        prefetchCnt := m.core.prefetchCnt - 1 } } := by
  unfold fetch at h
  rw [if_neg hcnt] at h
  by_cases hbound : 7 - m.core.prefetchCnt.toNat < 7 ∧ m.core.prefetchCnt.toNat ≤ 7
  · rw [dif_pos hbound] at h
    cases h
    exact ⟨hbound.1, rfl⟩
  · rw [dif_neg hbound] at h
    cases h

theorem coreCycle_fetch_eq (hstate : m.core.state = .fetch) (residue : BitVec 8) :
    coreCycle residue m = fetch m >>= fun m' => .ok (m'.advance .decode) := by
  unfold coreCycle
  rw [hstate]
  rfl

theorem Machine.Outcome.ahead {next : CoreState} (h : m.Outcome next m')
    (hnext : next = .execute ∨ next = .memory ∨ next = .writeback)
    (hholds : m.core.Holds P (m.core.pc + 4)) : m'.core.Ahead P := by
  cases h with
  | done dec aluOut bus =>
      unfold Core.Ahead
      rcases hnext with hnext | hnext | hnext
      all_goals
        subst hnext
        exact hholds
  | trapped dec aluOut bus cause hmem => exact Core.ahead_of_trap rfl

/-- A cycle that does not refill the buffer leaves in it the words in front of the
program counter, or flushes it. -/
theorem coreCycle_ahead (h : coreCycle residue m = .ok m') (hrefill : ¬ m.core.Refills)
    (hahead : m.core.Ahead P) : m'.core.Ahead P := by
  unfold Core.Ahead at hahead
  cases coreCycle_cases h with
  | fetched hstate =>
      rw [hstate] at hahead
      have hcnt : m.core.prefetchCnt ≠ 0 := fun hcnt => hrefill ⟨hstate, hcnt⟩
      rw [coreCycle_fetch_eq hstate] at h
      obtain ⟨mf, hfetch, h⟩ := Transition.exists_of_bind_ok h
      obtain ⟨hbound, rfl⟩ := fetch_buffered hcnt hfetch
      cases h
      have hshift : Core.Holds { m.core with
          instruction := m.core.prefetch ⟨7 - m.core.prefetchCnt.toNat, hbound⟩
          prefetchCnt := m.core.prefetchCnt - 1 } P (m.core.pc + 4) :=
        hahead.shift hcnt rfl rfl
      unfold Core.Ahead Machine.advance Core.advance Machine.withCore
      simp only [hstate]
      exact hshift
  | decoded hstate hout =>
      rw [hstate] at hahead
      exact hout.ahead (Or.inl rfl) hahead
  | executed hstate hout =>
      rw [hstate] at hahead
      exact hout.ahead (Or.inr (Or.inl rfl)) hahead
  | accessed hstate hout =>
      rw [hstate] at hahead
      exact hout.ahead (Or.inr (Or.inr rfl)) hahead
  | written hstate =>
      rw [hstate] at hahead
      rw [writeback_eq]
      show Core.Holds _ P (if m.core.decoded.isJump then m.core.decoded.jumpTarget
        else m.core.pc + 4)
      by_cases hjump : m.core.decoded.isJump = true
      · exact Core.holds_of_empty (if_pos hjump)
      · rw [if_neg hjump]
        exact hahead.congr rfl (if_neg hjump)
  | entered hstate => exact Core.ahead_of_trap hstate
  | exiting hstate => exact Core.ahead_of_trap hstate
  | resumed => exact Core.holds_of_empty rfl

end Cycles

end CRiscV
