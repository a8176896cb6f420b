/-
What each RV32I instruction does to a hart: a program counter, thirty-two
registers of which the first is zero, and a memory of bytes.  Environment calls
and breakpoints leave the hart to its environment and have no effect here.
-/
import CRiscV.Isa.Encoding

namespace CRiscV
namespace Isa

structure Hart where
  pc : Word
  reg : Reg → Word
  mem : Word → BitVec 8

theorem Hart.eq_of {s s' : Hart} (hpc : s.pc = s'.pc) (hreg : s.reg = s'.reg)
    (hmem : s.mem = s'.mem) : s = s' := by
  cases s
  cases s'
  cases hpc
  cases hreg
  cases hmem
  rfl

/-- Register zero stays zero whatever is written to it. -/
def setReg (reg : Reg → Word) (r : Reg) (v : Word) : Reg → Word :=
  fun x => if x = r ∧ r ≠ 0 then v else reg x

theorem setReg_self {reg : Reg → Word} {r : Reg} (h : r ≠ 0) (v : Word) :
    setReg reg r v r = v := if_pos ⟨rfl, h⟩

theorem setReg_zero (reg : Reg → Word) (v : Word) : setReg reg 0 v = reg := by
  funext x
  exact if_neg (fun h => h.2 rfl)

theorem setReg_at_zero (reg : Reg → Word) (r : Reg) (v : Word) : setReg reg r v 0 = reg 0 :=
  if_neg fun h => h.2 h.1.symm

theorem setReg_inj {reg : Reg → Word} {r : Reg} {v v' : Word} :
    setReg reg r v = setReg reg r v' ↔ r = 0 ∨ v = v' := by
  constructor
  · intro h
    by_cases hr : r = 0
    · exact Or.inl hr
    · have hv := congrFun h r
      rw [setReg_self hr, setReg_self hr] at hv
      exact Or.inr hv
  · intro h
    cases h with
    | inl hr => rw [hr, setReg_zero, setReg_zero]
    | inr hv => rw [hv]

def boolWord (b : Bool) : Word := if b then 1 else 0

def RegOp.eval (op : RegOp) (a b : Word) : Word :=
  match op with
  | .add => a + b
  | .sub => a - b
  | .sll => a <<< (b.toNat % 32)
  | .slt => boolWord (a.slt b)
  | .sltu => boolWord (a.ult b)
  | .xor => a ^^^ b
  | .srl => a >>> (b.toNat % 32)
  | .sra => a.sshiftRight (b.toNat % 32)
  | .or => a ||| b
  | .and => a &&& b

/-- Every immediate of this group is sign-extended first. -/
def ImmOp.eval (op : ImmOp) (a : Word) (value : BitVec 12) : Word :=
  let b := value.signExtend 32
  match op with
  | .addi => a + b
  | .slti => boolWord (a.slt b)
  | .sltiu => boolWord (a.ult b)
  | .xori => a ^^^ b
  | .ori => a ||| b
  | .andi => a &&& b

def ShiftOp.eval (op : ShiftOp) (a : Word) (amount : BitVec 5) : Word :=
  match op with
  | .slli => a <<< amount.toNat
  | .srli => a >>> amount.toNat
  | .srai => a.sshiftRight amount.toNat

def BranchOp.taken (op : BranchOp) (a b : Word) : Bool :=
  match op with
  | .beq => a == b
  | .bne => a != b
  | .blt => a.slt b
  | .bge => !a.slt b
  | .bltu => a.ult b
  | .bgeu => !a.ult b

/-- The number of bytes an access moves. -/
def LoadOp.size : LoadOp → Nat
  | .lb | .lbu => 1
  | .lh | .lhu => 2
  | .lw => 4

def StoreOp.size : StoreOp → Nat
  | .sb => 1
  | .sh => 2
  | .sw => 4

/-- The value a load puts in its register, from the bytes in memory order. -/
def LoadOp.value (op : LoadOp) (byte : Nat → BitVec 8) : Word :=
  match op with
  | .lb => (byte 0).signExtend 32
  | .lbu => (byte 0).setWidth 32
  | .lh => (byte 1 ++ byte 0).signExtend 32
  | .lhu => (byte 1 ++ byte 0).setWidth 32
  | .lw => byte 3 ++ byte 2 ++ byte 1 ++ byte 0

/-- Memory after the low `count` bytes of `v` have gone to `a` and up, the low
byte first. -/
def storeBytes (mem : Word → BitVec 8) (a : Word) (count : Nat) (v : Word) : Word → BitVec 8 :=
  fun x => if (x - a).toNat < count then v.extractLsb' (8 * (x - a).toNat) 8 else mem x

def Hart.next (s : Hart) : Hart := { s with pc := s.pc + 4 }

/-- Two results of one instruction differ unless nothing is written. -/
theorem next_setReg_inj {s : Hart} {r : Reg} {v v' : Word} :
    { s.next with reg := setReg s.reg r v } = { s.next with reg := setReg s.reg r v' } ↔
      r = 0 ∨ v = v' := by
  constructor
  · intro h
    exact setReg_inj.mp (congrArg Hart.reg h)
  · intro h
    rw [setReg_inj.mpr h]

def exec (s : Hart) : Instr → Hart
  | .reg op rd rs1 rs2 =>
      { s.next with reg := setReg s.reg rd (op.eval (s.reg rs1) (s.reg rs2)) }
  | .imm op rd rs1 value => { s.next with reg := setReg s.reg rd (op.eval (s.reg rs1) value) }
  | .shift op rd rs1 amount => { s.next with reg := setReg s.reg rd (op.eval (s.reg rs1) amount) }
  | .load op rd rs1 offset =>
      let a := s.reg rs1 + offset.signExtend 32
      { s.next with reg := setReg s.reg rd (op.value fun i => s.mem (a + BitVec.ofNat 32 i)) }
  | .store op rs1 rs2 offset =>
      let a := s.reg rs1 + offset.signExtend 32
      { s.next with mem := storeBytes s.mem a op.size (s.reg rs2) }
  | .branch op rs1 rs2 offset =>
      if op.taken (s.reg rs1) (s.reg rs2) then { s with pc := s.pc + offset.signExtend 32 }
      else s.next
  | .lui rd value => { s.next with reg := setReg s.reg rd (value ++ 0#12) }
  | .auipc rd value => { s.next with reg := setReg s.reg rd (s.pc + (value ++ 0#12)) }
  | .jal rd offset =>
      { s with pc := s.pc + offset.signExtend 32, reg := setReg s.reg rd (s.pc + 4) }
  | .jalr rd rs1 offset =>
      { s with
        pc := (s.reg rs1 + offset.signExtend 32) &&& ~~~1
        reg := setReg s.reg rd (s.pc + 4) }
  | .fence => s.next
  | .ecall | .ebreak => s

/-- A branch moves the program counter and nothing else. -/
theorem exec_branch (s : Hart) (op : BranchOp) (rs1 rs2 : Reg) (offset : BitVec 13) :
    exec s (.branch op rs1 rs2 offset) =
      { s with
        pc := if op.taken (s.reg rs1) (s.reg rs2) then s.pc + offset.signExtend 32
          else s.pc + 4 } := by
  have hexec : exec s (.branch op rs1 rs2 offset) =
      if op.taken (s.reg rs1) (s.reg rs2) then { s with pc := s.pc + offset.signExtend 32 }
      else s.next := rfl
  rw [hexec]
  by_cases htaken : op.taken (s.reg rs1) (s.reg rs2) = true
  · rw [if_pos htaken, if_pos htaken]
  · rw [if_neg htaken, if_neg htaken]
    rfl

end Isa
end CRiscV
