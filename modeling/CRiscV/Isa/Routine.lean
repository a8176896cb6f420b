/-
Machine code in memory, and what it leads to one instruction at a time.

A routine is verified where it stands: a state inside it is an index into its code, and
each rule takes the user from one index to the next, to the target of a branch or out.
-/
import CRiscV.Isa.Platform
import CRiscV.Transition.Blocks

namespace CRiscV
namespace Isa

open Transition (Leads Meeting)

theorem setReg_of_ne {reg : Reg → Word} {r x : Reg} (h : x ≠ r) (v : Word) :
    setReg reg r v x = reg x := if_neg fun hx => h hx.1

/-- In front of instruction `k` of the code at `a`. -/
def User.at {W : Type} (a : Word) (k : Nat) (reg : Reg → Word) (w : W) : User W :=
  { pc := a + BitVec.ofNat 32 (4 * k), reg := reg, world := w }

theorem code_next (a : Word) (k : Nat) :
    a + BitVec.ofNat 32 (4 * k) + 4 = a + BitVec.ofNat 32 (4 * (k + 1)) := by
  rw [BitVec.add_assoc, Nat.mul_succ, BitVec.ofNat_add]
  rfl

namespace Platform

variable {W L : Type} (P : Platform W L)

/-- These instructions can be fetched from `a` on. -/
def Code (w : W) (a : Word) (code : List Instr) : Prop :=
  ∀ k i, code[k]? = some i → P.Shows w (a + BitVec.ofNat 32 (4 * k)) i

variable {P} {eff : Effect} {good Q : User W → Prop} {reg reg' : Reg → Word} {i : Instr} {w : W}
  {a : Word} {code : List Instr} {k : Nat}

/-- One instruction, wherever it goes. -/
theorem Code.leads (hcode : P.Code w a code) (hi : code[k]? = some i) (hplain : i.IsPlain)
    (hgood : good (.at a k reg w)) (hallows : P.Allows (.at a k reg w) i)
    (hnext : Leads (Meeting (P.Step eff) fun u _ => good u) Q (P.after eff (.at a k reg w) i)) :
    Leads (Meeting (P.Step eff) fun u _ => good u) Q (.at a k reg w) :=
  hnext.silent ⟨.plain (hcode k i hi) hplain hallows, hgood⟩

/-- One that goes on to the next. -/
theorem Code.leads_next (hcode : P.Code w a code) (hi : code[k]? = some i) (hplain : i.IsPlain)
    (hgood : good (.at a k reg w)) (hallows : P.Allows (.at a k reg w) i)
    (hafter : P.after eff (.at a k reg w) i =
      { pc := (User.at a k reg w).pc + 4, reg := reg', world := w })
    (hnext : Leads (Meeting (P.Step eff) fun u _ => good u) Q (.at a (k + 1) reg' w)) :
    Leads (Meeting (P.Step eff) fun u _ => good u) Q (.at a k reg w) := by
  apply hcode.leads hi hplain hgood hallows
  rw [hafter, show (User.at a k reg w).pc = a + BitVec.ofNat 32 (4 * k) from rfl, code_next]
  exact hnext

theorem after_branch {u : User W} {op : BranchOp} {rs1 rs2 : Reg} {offset : BitVec 13}
    (heff : ∀ s, eff s (.branch op rs1 rs2 offset) = exec s (.branch op rs1 rs2 offset)) :
    P.after eff u (.branch op rs1 rs2 offset) = { u with
      pc := if op.taken (u.reg rs1) (u.reg rs2) then u.pc + offset.signExtend 32
        else u.pc + 4 } := by
  unfold after
  rw [heff, exec_branch]
  rfl

/-- A branch inside the code. -/
theorem Code.leads_branch {op : BranchOp} {rs1 rs2 : Reg} {offset : BitVec 13} {j : Nat}
    (hcode : P.Code w a code) (hi : code[k]? = some (.branch op rs1 rs2 offset))
    (hgood : good (.at a k reg w))
    (heff : ∀ s, eff s (.branch op rs1 rs2 offset) = exec s (.branch op rs1 rs2 offset))
    (hj : BitVec.ofNat 32 (4 * k) + offset.signExtend 32 = BitVec.ofNat 32 (4 * j))
    (htaken : op.taken (reg rs1) (reg rs2) = true →
      Leads (Meeting (P.Step eff) fun u _ => good u) Q (.at a j reg w))
    (hfalls : op.taken (reg rs1) (reg rs2) = false →
      Leads (Meeting (P.Step eff) fun u _ => good u) Q (.at a (k + 1) reg w)) :
    Leads (Meeting (P.Step eff) fun u _ => good u) Q (.at a k reg w) := by
  apply hcode.leads hi trivial hgood trivial
  rw [after_branch heff]
  cases hb : op.taken (reg rs1) (reg rs2) with
  | true =>
      have hcond : op.taken ((User.at a k reg w).reg rs1) ((User.at a k reg w).reg rs2) = true := hb
      have hpc : (User.at a k reg w).pc + offset.signExtend 32 = a + BitVec.ofNat 32 (4 * j) := by
        rw [← hj, ← BitVec.add_assoc]
        rfl
      rw [if_pos hcond, hpc]
      exact htaken hb
  | false =>
      have hcond : ¬ op.taken ((User.at a k reg w).reg rs1) ((User.at a k reg w).reg rs2) = true :=
        fun htrue => Bool.false_ne_true (hb.symm.trans htrue)
      rw [if_neg hcond, show (User.at a k reg w).pc = a + BitVec.ofNat 32 (4 * k) from rfl,
        code_next]
      exact hfalls hb

end Platform
end Isa
end CRiscV
