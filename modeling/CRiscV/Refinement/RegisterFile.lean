/-
The control and status registers as one file of 64-bit registers with narrow and full
accesses, and when the six operations of csr.c are the accesses of that file.
-/
import CRiscV.Core.Csr
import CRiscV.Transition.Mealy

namespace CRiscV

open Transition

/-! ## The halves of a register -/

def lowHalf (v : BitVec 64) : Word := v.setWidth 32

def highHalf (v : BitVec 64) : Word := v.extractLsb' 32 32

theorem eq_of_halves {u v : BitVec 64} (hhigh : highHalf u = highHalf v)
    (hlow : lowHalf u = lowHalf v) : u = v := by
  apply BitVec.eq_of_getLsbD_eq
  intro i hi
  by_cases hi32 : i < 32
  · have hbit := congrArg (BitVec.getLsbD · i) hlow
    simpa [lowHalf, hi32] using hbit
  · have hbit := congrArg (BitVec.getLsbD · (i - 32)) hhigh
    have hsub : i - 32 < 32 := by omega
    have hadd : 32 + (i - 32) = i := by omega
    simpa [highHalf, BitVec.getLsbD_extractLsb', hsub, hadd] using hbit

@[simp] theorem lowHalf_append (high low : Word) : lowHalf (high ++ low) = low :=
  BitVec.setWidth_append_eq_right

@[simp] theorem highHalf_append (high low : Word) : highHalf (high ++ low) = high :=
  BitVec.extractLsb'_append_eq_left

@[simp] theorem lowHalf_wide (v : Word) : lowHalf (wide v) = v := setWidth_wide v

@[simp] theorem highHalf_wide (v : Word) : highHalf (wide v) = 0 := by
  apply BitVec.eq_of_getLsbD_eq
  intro i hi
  rw [highHalf, wide, BitVec.getLsbD_extractLsb', BitVec.getLsbD_setWidth,
    BitVec.getLsbD_of_ge v (32 + i) (by omega)]
  simp

@[simp] theorem lowHalf_or (u v : BitVec 64) : lowHalf (u ||| v) = lowHalf u ||| lowHalf v :=
  BitVec.setWidth_or

@[simp] theorem highHalf_or (u v : BitVec 64) : highHalf (u ||| v) = highHalf u ||| highHalf v :=
  BitVec.extractLsb'_or

@[simp] theorem lowHalf_and (u v : BitVec 64) : lowHalf (u &&& v) = lowHalf u &&& lowHalf v :=
  BitVec.setWidth_and

@[simp] theorem highHalf_and (u v : BitVec 64) : highHalf (u &&& v) = highHalf u &&& highHalf v :=
  BitVec.extractLsb'_and

/-! ## The register file -/

inductive CsrAction where
  | write | set | clear
  deriving DecidableEq, Repr

/-- What becomes of a register, or of a half of one. -/
def CsrAction.apply {n : Nat} (old operand : BitVec n) : CsrAction → BitVec n
  | .write => operand
  | .set => old ||| operand
  | .clear => old &&& ~~~operand

/-- A call of one of the six operations: the 32-bit forms are narrow. -/
inductive CsrOp where
  | narrow (act : CsrAction) (addr : CsrAddress) (operand : Word)
  | full (act : CsrAction) (addr : CsrAddress) (operand : BitVec 64)
  deriving DecidableEq, Repr

/-- The file as it is meant to be: a narrow access sees and changes the low half of a
register. -/
def CsrOp.meant (csr : Csr) : CsrOp → (Word ⊕ BitVec 64) × Csr
  | .narrow act addr operand =>
      (.inl (lowHalf (csr addr)),
        csr.set addr (highHalf (csr addr) ++ act.apply (lowHalf (csr addr)) operand))
  | .full act addr operand => (.inr (csr addr), csr.set addr (act.apply (csr addr) operand))

/-- The operation of csr.c. -/
def CsrOp.call (csr : Csr) : CsrOp → (Word ⊕ BitVec 64) × Csr
  | .narrow .write addr val => (csrReadWrite32 csr addr val).map .inl id
  | .narrow .set addr mask => (csrReadSet32 csr addr mask).map .inl id
  | .narrow .clear addr mask => (csrReadClear32 csr addr mask).map .inl id
  | .full .write addr val => (csrReadWrite64 csr addr val).map .inr id
  | .full .set addr mask => (csrReadSet64 csr addr mask).map .inr id
  | .full .clear addr mask => (csrReadClear64 csr addr mask).map .inr id

/-- What a narrow operation stores, its operand widened to the register. -/
def CsrAction.stored (old : BitVec 64) (operand : Word) : CsrAction → BitVec 64
  | .write => wide operand
  | .set => old ||| wide operand
  | .clear => old &&& wide (~~~operand)

theorem CsrAction.lowHalf_stored (old : BitVec 64) (operand : Word) (act : CsrAction) :
    lowHalf (act.stored old operand) = act.apply (lowHalf old) operand := by
  cases act <;> simp [stored, apply]

/-- Only a set leaves the high half alone. -/
theorem CsrAction.highHalf_stored (old : BitVec 64) (operand : Word) (act : CsrAction) :
    highHalf (act.stored old operand) = if act = .set then highHalf old else 0 := by
  cases act <;> simp [stored]

theorem CsrOp.call_narrow (csr : Csr) (act : CsrAction) (addr : CsrAddress) (operand : Word) :
    (narrow act addr operand).call csr =
      (.inl (lowHalf (csr addr)), csr.set addr (act.stored (csr addr) operand)) := by
  cases act <;> rfl

theorem CsrOp.call_full (csr : Csr) (act : CsrAction) (addr : CsrAddress)
    (operand : BitVec 64) :
    (full act addr operand).call csr = (full act addr operand).meant csr := by
  cases act <;> rfl

/-! ## One operation -/

/-- A narrow write or clear reaches a register that its low half fills. -/
def CsrOp.Fits (csr : Csr) : CsrOp → Prop
  | .narrow act addr _ => act = .set ∨ highHalf (csr addr) = 0
  | .full _ _ _ => True

theorem CsrOp.call_of_fits {csr : Csr} {op : CsrOp} (h : op.Fits csr) :
    op.call csr = op.meant csr := by
  cases op with
  | full act addr operand => exact call_full csr act addr operand
  | narrow act addr operand =>
      have hhigh : highHalf (act.stored (csr addr) operand) = highHalf (csr addr) := by
        rw [CsrAction.highHalf_stored]
        rcases h with rfl | hzero
        · rw [if_pos rfl]
        · rw [hzero, ite_self]
      have hstored : act.stored (csr addr) operand =
          highHalf (csr addr) ++ act.apply (lowHalf (csr addr)) operand := by
        apply eq_of_halves
        · rw [hhigh, highHalf_append]
        · rw [CsrAction.lowHalf_stored, lowHalf_append]
      rw [call_narrow, hstored, meant]

/-- The registers have come apart: a high half was cleared that the file keeps. -/
def Csr.Apart (csr file : Csr) : Prop :=
  ∃ addr, highHalf (csr addr) = 0 ∧ highHalf (file addr) ≠ 0

theorem Csr.not_apart_self (csr : Csr) : ¬ Csr.Apart csr csr := by
  rintro ⟨addr, hzero, hne⟩
  exact hne hzero

theorem CsrOp.apart_of_not_fits {csr : Csr} {op : CsrOp} (h : ¬ op.Fits csr) :
    Csr.Apart (op.call csr).2 (op.meant csr).2 := by
  cases op with
  | full act addr operand => exact absurd trivial h
  | narrow act addr operand =>
      obtain ⟨hact, hhigh⟩ := not_or.mp h
      refine ⟨addr, ?_, ?_⟩
      · simp only [call_narrow, Csr.set_self, CsrAction.highHalf_stored, if_neg hact]
      · simp only [meant, Csr.set_self, highHalf_append]
        exact hhigh

/-- No operation mends the high half without returning it first. -/
theorem CsrOp.apart_kept {csr file : Csr} {op : CsrOp} (h : Csr.Apart csr file)
    (hanswer : (op.call csr).1 = (op.meant file).1) :
    Csr.Apart (op.call csr).2 (op.meant file).2 := by
  obtain ⟨a, hzero, hne⟩ := h
  refine ⟨a, ?_⟩
  cases op with
  | full act addr operand =>
      rw [call_full] at hanswer ⊢
      have hold : csr addr = file addr := Sum.inr.inj hanswer
      have haddr : a ≠ addr := by
        rintro rfl
        exact hne (hold ▸ hzero)
      simp only [meant, Csr.set_of_ne csr haddr, Csr.set_of_ne file haddr]
      exact ⟨hzero, hne⟩
  | narrow act addr operand =>
      simp only [call_narrow, meant]
      by_cases haddr : a = addr
      · subst haddr
        simp only [Csr.set_self, CsrAction.highHalf_stored, highHalf_append, hzero, ite_self]
        exact ⟨trivial, hne⟩
      · rw [Csr.set_of_ne csr haddr, Csr.set_of_ne file haddr]
        exact ⟨hzero, hne⟩

/-! ## Reading through a clear -/

/-- A 32-bit clear with an empty mask, the read that `trap` and `trap_handler` do. -/
theorem csrReadClear32_zero_iff (csr : Csr) (addr : CsrAddress) :
    (csrReadClear32 csr addr 0).2 = csr ↔ highHalf (csr addr) = 0 := by
  constructor
  · intro h
    have hhigh : highHalf ((csrReadClear32 csr addr 0).2 addr) = 0 := by
      simp [csrReadClear32]
    rwa [h] at hhigh
  · intro hzero
    apply Csr.set_eq_self
    apply eq_of_halves
    · simp [hzero]
    · have hmask : (~~~0 : Word) = BitVec.allOnes 32 := BitVec.not_zero
      rw [lowHalf_and, lowHalf_wide, hmask, BitVec.and_allOnes]

/-! ## Sequences of operations -/

theorem CsrOp.serve_eq_iff_fits (csr : Csr) (ops : List CsrOp) :
    serve call csr ops = serve meant csr ops ↔ Meets call Fits csr ops := by
  refine @serve_eq_iff _ _ _ call meant Fits csr Csr.Apart ?_ ?_ ?_ Csr.not_apart_self ops
  · exact call_of_fits
  · exact apart_of_not_fits
  · exact apart_kept

/-- The operations of csr.c return what the file returns and leave what the file leaves
exactly if no narrow write and no narrow clear met a register with a high half. -/
theorem csr_serves_iff (csr : Csr) (ops : List CsrOp) :
    (serve CsrOp.call csr ops = serve CsrOp.meant csr ops ↔
      Meets CsrOp.call CsrOp.Fits csr ops) ∧
    ∀ addr, (csrReadClear32 csr addr 0).2 = csr ↔ highHalf (csr addr) = 0 :=
  ⟨CsrOp.serve_eq_iff_fits csr ops, csrReadClear32_zero_iff csr⟩

/-- A wide counter is written and then read with an empty mask. -/
theorem csr_serves_wide_ne :
    serve CsrOp.call (fun _ => 0)
        [.full .write 0xb00 (2 ^ 32), .narrow .clear 0xb00 0] ≠
      serve CsrOp.meant (fun _ => 0)
        [.full .write 0xb00 (2 ^ 32), .narrow .clear 0xb00 0] := by
  intro h
  have hcounter := congrArg (fun served => served.2 0xb00) h
  revert hcounter
  decide

end CRiscV
