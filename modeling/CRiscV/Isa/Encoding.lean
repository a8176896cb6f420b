/-
The RV32I base instruction set: the fields of an instruction word, the
instructions, and which words encode them.
-/
import Mathlib.Data.BitVec

namespace CRiscV
namespace Isa

abbrev Word := BitVec 32
abbrev Reg := BitVec 5

def opcode (w : Word) : BitVec 7 := w.extractLsb' 0 7
def rd (w : Word) : Reg := w.extractLsb' 7 5
def funct3 (w : Word) : BitVec 3 := w.extractLsb' 12 3
def rs1 (w : Word) : Reg := w.extractLsb' 15 5
def rs2 (w : Word) : Reg := w.extractLsb' 20 5
def funct7 (w : Word) : BitVec 7 := w.extractLsb' 25 7

def immI (w : Word) : BitVec 12 := w.extractLsb' 20 12
def immS (w : Word) : BitVec 12 := w.extractLsb' 25 7 ++ w.extractLsb' 7 5
def immB (w : Word) : BitVec 13 :=
  w.extractLsb' 31 1 ++ w.extractLsb' 7 1 ++ w.extractLsb' 25 6 ++ w.extractLsb' 8 4 ++ 0#1
def immU (w : Word) : BitVec 20 := w.extractLsb' 12 20
def immJ (w : Word) : BitVec 21 :=
  w.extractLsb' 31 1 ++ w.extractLsb' 12 8 ++ w.extractLsb' 20 1 ++ w.extractLsb' 21 10 ++ 0#1

/-- The offsets of branches and jumps in halfwords. -/
def immBHalf (w : Word) : BitVec 12 :=
  w.extractLsb' 31 1 ++ w.extractLsb' 7 1 ++ w.extractLsb' 25 6 ++ w.extractLsb' 8 4

def immJHalf (w : Word) : BitVec 20 :=
  w.extractLsb' 31 1 ++ w.extractLsb' 12 8 ++ w.extractLsb' 20 1 ++ w.extractLsb' 21 10

inductive RegOp where
  | add | sub | sll | slt | sltu | xor | srl | sra | or | and
  deriving DecidableEq, Repr

inductive ImmOp where
  | addi | slti | sltiu | xori | ori | andi
  deriving DecidableEq, Repr

inductive ShiftOp where
  | slli | srli | srai
  deriving DecidableEq, Repr

inductive LoadOp where
  | lb | lh | lw | lbu | lhu
  deriving DecidableEq, Repr

inductive StoreOp where
  | sb | sh | sw
  deriving DecidableEq, Repr

inductive BranchOp where
  | beq | bne | blt | bge | bltu | bgeu
  deriving DecidableEq, Repr

inductive Instr where
  | reg (op : RegOp) (rd rs1 rs2 : Reg)
  | imm (op : ImmOp) (rd rs1 : Reg) (value : BitVec 12)
  | shift (op : ShiftOp) (rd rs1 : Reg) (amount : BitVec 5)
  | load (op : LoadOp) (rd rs1 : Reg) (offset : BitVec 12)
  | store (op : StoreOp) (rs1 rs2 : Reg) (offset : BitVec 12)
  | branch (op : BranchOp) (rs1 rs2 : Reg) (offset : BitVec 13)
  | lui (rd : Reg) (value : BitVec 20)
  | auipc (rd : Reg) (value : BitVec 20)
  | jal (rd : Reg) (offset : BitVec 21)
  | jalr (rd rs1 : Reg) (offset : BitVec 12)
  | fence
  | ecall
  | ebreak
  deriving DecidableEq, Repr

def regOp (f3 : BitVec 3) (f7 : BitVec 7) : Option RegOp :=
  if f7 = 0b0000000 then
    if f3 = 0b000 then some .add
    else if f3 = 0b001 then some .sll
    else if f3 = 0b010 then some .slt
    else if f3 = 0b011 then some .sltu
    else if f3 = 0b100 then some .xor
    else if f3 = 0b101 then some .srl
    else if f3 = 0b110 then some .or
    else some .and
  else if f7 = 0b0100000 then
    if f3 = 0b000 then some .sub
    else if f3 = 0b101 then some .sra
    else none
  else none

def immOp (f3 : BitVec 3) : Option ImmOp :=
  if f3 = 0b000 then some .addi
  else if f3 = 0b010 then some .slti
  else if f3 = 0b011 then some .sltiu
  else if f3 = 0b100 then some .xori
  else if f3 = 0b110 then some .ori
  else if f3 = 0b111 then some .andi
  else none

def shiftOp (f3 : BitVec 3) (f7 : BitVec 7) : Option ShiftOp :=
  if f3 = 0b001 ∧ f7 = 0b0000000 then some .slli
  else if f3 = 0b101 ∧ f7 = 0b0000000 then some .srli
  else if f3 = 0b101 ∧ f7 = 0b0100000 then some .srai
  else none

def loadOp (f3 : BitVec 3) : Option LoadOp :=
  if f3 = 0b000 then some .lb
  else if f3 = 0b001 then some .lh
  else if f3 = 0b010 then some .lw
  else if f3 = 0b100 then some .lbu
  else if f3 = 0b101 then some .lhu
  else none

def storeOp (f3 : BitVec 3) : Option StoreOp :=
  if f3 = 0b000 then some .sb
  else if f3 = 0b001 then some .sh
  else if f3 = 0b010 then some .sw
  else none

def branchOp (f3 : BitVec 3) : Option BranchOp :=
  if f3 = 0b000 then some .beq
  else if f3 = 0b001 then some .bne
  else if f3 = 0b100 then some .blt
  else if f3 = 0b101 then some .bge
  else if f3 = 0b110 then some .bltu
  else if f3 = 0b111 then some .bgeu
  else none

/-- The instruction a word encodes, if it encodes one.  The fields of `FENCE`
other than opcode and funct3 are ignored, as the specification asks of an
implementation; `ECALL` and `EBREAK` are single words. -/
def decode (w : Word) : Option Instr :=
  if opcode w = 0b0110011 then
    (regOp (funct3 w) (funct7 w)).map fun op => .reg op (rd w) (rs1 w) (rs2 w)
  else if opcode w = 0b0010011 then
    match immOp (funct3 w) with
    | some op => some (.imm op (rd w) (rs1 w) (immI w))
    | none => (shiftOp (funct3 w) (funct7 w)).map fun op => .shift op (rd w) (rs1 w) (rs2 w)
  else if opcode w = 0b0000011 then
    (loadOp (funct3 w)).map fun op => .load op (rd w) (rs1 w) (immI w)
  else if opcode w = 0b0100011 then
    (storeOp (funct3 w)).map fun op => .store op (rs1 w) (rs2 w) (immS w)
  else if opcode w = 0b1100011 then
    (branchOp (funct3 w)).map fun op => .branch op (rs1 w) (rs2 w) (immB w)
  else if opcode w = 0b0110111 then some (.lui (rd w) (immU w))
  else if opcode w = 0b0010111 then some (.auipc (rd w) (immU w))
  else if opcode w = 0b1101111 then some (.jal (rd w) (immJ w))
  else if opcode w = 0b1100111 then
    if funct3 w = 0b000 then some (.jalr (rd w) (rs1 w) (immI w)) else none
  else if opcode w = 0b0001111 then
    if funct3 w = 0b000 then some .fence else none
  else if w = 0x00000073 then some .ecall
  else if w = 0x00100073 then some .ebreak
  else none


/-! ## The codes of the operations and the words that carry them -/

def RegOp.funct3 : RegOp → BitVec 3
  | .add | .sub => 0b000
  | .sll => 0b001
  | .slt => 0b010
  | .sltu => 0b011
  | .xor => 0b100
  | .srl | .sra => 0b101
  | .or => 0b110
  | .and => 0b111

def RegOp.funct7 : RegOp → BitVec 7
  | .sub | .sra => 0b0100000
  | _ => 0b0000000

def ImmOp.funct3 : ImmOp → BitVec 3
  | .addi => 0b000
  | .slti => 0b010
  | .sltiu => 0b011
  | .xori => 0b100
  | .ori => 0b110
  | .andi => 0b111

def ShiftOp.funct3 : ShiftOp → BitVec 3
  | .slli => 0b001
  | .srli | .srai => 0b101

def ShiftOp.funct7 : ShiftOp → BitVec 7
  | .slli | .srli => 0b0000000
  | .srai => 0b0100000

def LoadOp.funct3 : LoadOp → BitVec 3
  | .lb => 0b000
  | .lh => 0b001
  | .lw => 0b010
  | .lbu => 0b100
  | .lhu => 0b101

def StoreOp.funct3 : StoreOp → BitVec 3
  | .sb => 0b000
  | .sh => 0b001
  | .sw => 0b010

theorem regOp_eq_some {f3 : BitVec 3} {f7 : BitVec 7} {op : RegOp} (h : regOp f3 f7 = some op) :
    f3 = op.funct3 ∧ f7 = op.funct7 := by
  revert f3 f7 op
  decide

theorem immOp_eq_some {f3 : BitVec 3} {op : ImmOp} (h : immOp f3 = some op) :
    f3 = op.funct3 := by
  revert h
  cases op <;> revert f3 <;> decide

theorem shiftOp_eq_some {f3 : BitVec 3} {f7 : BitVec 7} {op : ShiftOp}
    (h : shiftOp f3 f7 = some op) : f3 = op.funct3 ∧ f7 = op.funct7 := by
  unfold shiftOp at h
  split_ifs at h with h1 h2 h3
  · cases h; exact h1
  · cases h; exact h2
  · cases h; exact h3

theorem loadOp_eq_some {f3 : BitVec 3} {op : LoadOp} (h : loadOp f3 = some op) :
    f3 = op.funct3 := by
  revert h
  cases op <;> revert f3 <;> decide

theorem storeOp_eq_some {f3 : BitVec 3} {op : StoreOp} (h : storeOp f3 = some op) :
    f3 = op.funct3 := by
  revert h
  cases op <;> revert f3 <;> decide

/-- The opcode an instruction is encoded under. -/
def Instr.opcode : Instr → BitVec 7
  | .reg .. => 0b0110011
  | .imm .. | .shift .. => 0b0010011
  | .load .. => 0b0000011
  | .store .. => 0b0100011
  | .branch .. => 0b1100011
  | .lui .. => 0b0110111
  | .auipc .. => 0b0010111
  | .jal .. => 0b1101111
  | .jalr .. => 0b1100111
  | .fence => 0b0001111
  | .ecall | .ebreak => 0b1110011

theorem opcode_of_decode {w : Word} {i : Instr} (h : decode w = some i) : opcode w = i.opcode := by
  unfold decode at h
  by_cases h1 : opcode w = 0b0110011
  · rw [if_pos h1] at h
    obtain ⟨op, -, rfl⟩ := Option.map_eq_some_iff.mp h
    exact h1
  rw [if_neg h1] at h
  by_cases h2 : opcode w = 0b0010011
  · rw [if_pos h2] at h
    cases himm : immOp (funct3 w) with
    | some op =>
        rw [himm] at h
        cases h
        exact h2
    | none =>
        rw [himm] at h
        obtain ⟨op, -, rfl⟩ := Option.map_eq_some_iff.mp h
        exact h2
  rw [if_neg h2] at h
  by_cases h3 : opcode w = 0b0000011
  · rw [if_pos h3] at h
    obtain ⟨op, -, rfl⟩ := Option.map_eq_some_iff.mp h
    exact h3
  rw [if_neg h3] at h
  by_cases h4 : opcode w = 0b0100011
  · rw [if_pos h4] at h
    obtain ⟨op, -, rfl⟩ := Option.map_eq_some_iff.mp h
    exact h4
  rw [if_neg h4] at h
  by_cases h5 : opcode w = 0b1100011
  · rw [if_pos h5] at h
    obtain ⟨op, -, rfl⟩ := Option.map_eq_some_iff.mp h
    exact h5
  rw [if_neg h5] at h
  by_cases h6 : opcode w = 0b0110111
  · rw [if_pos h6] at h
    cases h
    exact h6
  rw [if_neg h6] at h
  by_cases h7 : opcode w = 0b0010111
  · rw [if_pos h7] at h
    cases h
    exact h7
  rw [if_neg h7] at h
  by_cases h8 : opcode w = 0b1101111
  · rw [if_pos h8] at h
    cases h
    exact h8
  rw [if_neg h8] at h
  by_cases h9 : opcode w = 0b1100111
  · rw [if_pos h9] at h
    by_cases hf : funct3 w = 0b000
    · rw [if_pos hf] at h
      cases h
      exact h9
    · rw [if_neg hf] at h
      cases h
  rw [if_neg h9] at h
  by_cases h10 : opcode w = 0b0001111
  · rw [if_pos h10] at h
    by_cases hf : funct3 w = 0b000
    · rw [if_pos hf] at h
      cases h
      exact h10
    · rw [if_neg hf] at h
      cases h
  rw [if_neg h10] at h
  by_cases h11 : w = 0x00000073
  · rw [if_pos h11] at h
    cases h
    rw [h11]
    decide
  rw [if_neg h11] at h
  by_cases h12 : w = 0x00100073
  · rw [if_pos h12] at h
    cases h
    rw [h12]
    decide
  · rw [if_neg h12] at h
    cases h

theorem decode_reg {w : Word} (hop : opcode w = 0b0110011) :
    decode w = (regOp (funct3 w) (funct7 w)).map fun op => .reg op (rd w) (rs1 w) (rs2 w) := by
  rw [decode, if_pos hop]

theorem decode_imm {w : Word} (hop : opcode w = 0b0010011) :
    decode w =
      match immOp (funct3 w) with
      | some op => some (.imm op (rd w) (rs1 w) (immI w))
      | none =>
          (shiftOp (funct3 w) (funct7 w)).map fun op => .shift op (rd w) (rs1 w) (rs2 w) := by
  rw [decode, hop, if_neg (by decide), if_pos rfl]

theorem decode_load {w : Word} (hop : opcode w = 0b0000011) :
    decode w = (loadOp (funct3 w)).map fun op => .load op (rd w) (rs1 w) (immI w) := by
  rw [decode, hop, if_neg (by decide), if_neg (by decide), if_pos rfl]

theorem decode_store {w : Word} (hop : opcode w = 0b0100011) :
    decode w = (storeOp (funct3 w)).map fun op => .store op (rs1 w) (rs2 w) (immS w) := by
  rw [decode, hop, if_neg (by decide), if_neg (by decide), if_neg (by decide), if_pos rfl]

theorem decode_branch {w : Word} (hop : opcode w = 0b1100011) :
    decode w = (branchOp (funct3 w)).map fun op => .branch op (rs1 w) (rs2 w) (immB w) := by
  rw [decode, hop, if_neg (by decide), if_neg (by decide), if_neg (by decide),
    if_neg (by decide), if_pos rfl]

theorem decode_lui {w : Word} (hop : opcode w = 0b0110111) :
    decode w = some (.lui (rd w) (immU w)) := by
  rw [decode, hop, if_neg (by decide), if_neg (by decide), if_neg (by decide),
    if_neg (by decide), if_neg (by decide), if_pos rfl]

theorem decode_auipc {w : Word} (hop : opcode w = 0b0010111) :
    decode w = some (.auipc (rd w) (immU w)) := by
  rw [decode, hop, if_neg (by decide), if_neg (by decide), if_neg (by decide),
    if_neg (by decide), if_neg (by decide), if_neg (by decide), if_pos rfl]

theorem decode_jal {w : Word} (hop : opcode w = 0b1101111) :
    decode w = some (.jal (rd w) (immJ w)) := by
  rw [decode, hop, if_neg (by decide), if_neg (by decide), if_neg (by decide),
    if_neg (by decide), if_neg (by decide), if_neg (by decide), if_neg (by decide), if_pos rfl]

theorem decode_jalr {w : Word} (hop : opcode w = 0b1100111) :
    decode w = if funct3 w = 0b000 then some (.jalr (rd w) (rs1 w) (immI w)) else none := by
  rw [decode, hop, if_neg (by decide), if_neg (by decide), if_neg (by decide),
    if_neg (by decide), if_neg (by decide), if_neg (by decide), if_neg (by decide),
    if_neg (by decide), if_pos rfl]

theorem decode_eq_reg {w : Word} {op : RegOp} {d a b : Reg}
    (h : decode w = some (.reg op d a b)) :
    opcode w = 0b0110011 ∧ funct3 w = op.funct3 ∧ funct7 w = op.funct7 ∧
      d = rd w ∧ a = rs1 w ∧ b = rs2 w := by
  have hop := opcode_of_decode h
  rw [decode_reg hop] at h
  obtain ⟨op', hreg, heq⟩ := Option.map_eq_some_iff.mp h
  injection heq with h1 h2 h3 h4
  subst h1
  obtain ⟨hf3, hf7⟩ := regOp_eq_some hreg
  exact ⟨hop, hf3, hf7, h2.symm, h3.symm, h4.symm⟩

theorem decode_eq_imm {w : Word} {op : ImmOp} {d a : Reg} {v : BitVec 12}
    (h : decode w = some (.imm op d a v)) :
    opcode w = 0b0010011 ∧ funct3 w = op.funct3 ∧ d = rd w ∧ a = rs1 w ∧ v = immI w := by
  have hop := opcode_of_decode h
  rw [decode_imm hop] at h
  cases himm : immOp (funct3 w) with
  | some op' =>
      rw [himm] at h
      injection h with h
      injection h with h1 h2 h3 h4
      subst h1
      exact ⟨hop, immOp_eq_some himm, h2.symm, h3.symm, h4.symm⟩
  | none =>
      rw [himm] at h
      obtain ⟨op', -, heq⟩ := Option.map_eq_some_iff.mp h
      cases heq

theorem decode_eq_shift {w : Word} {op : ShiftOp} {d a : Reg} {s : BitVec 5}
    (h : decode w = some (.shift op d a s)) :
    opcode w = 0b0010011 ∧ funct3 w = op.funct3 ∧ funct7 w = op.funct7 ∧
      d = rd w ∧ a = rs1 w ∧ s = rs2 w := by
  have hop := opcode_of_decode h
  rw [decode_imm hop] at h
  cases himm : immOp (funct3 w) with
  | some op' =>
      rw [himm] at h
      cases h
  | none =>
      rw [himm] at h
      obtain ⟨op', hshift, heq⟩ := Option.map_eq_some_iff.mp h
      injection heq with h1 h2 h3 h4
      subst h1
      obtain ⟨hf3, hf7⟩ := shiftOp_eq_some hshift
      exact ⟨hop, hf3, hf7, h2.symm, h3.symm, h4.symm⟩

theorem decode_eq_load {w : Word} {op : LoadOp} {d a : Reg} {v : BitVec 12}
    (h : decode w = some (.load op d a v)) :
    opcode w = 0b0000011 ∧ funct3 w = op.funct3 ∧ d = rd w ∧ a = rs1 w ∧ v = immI w := by
  have hop := opcode_of_decode h
  rw [decode_load hop] at h
  obtain ⟨op', hload, heq⟩ := Option.map_eq_some_iff.mp h
  injection heq with h1 h2 h3 h4
  subst h1
  exact ⟨hop, loadOp_eq_some hload, h2.symm, h3.symm, h4.symm⟩

theorem decode_eq_store {w : Word} {op : StoreOp} {a b : Reg} {v : BitVec 12}
    (h : decode w = some (.store op a b v)) :
    opcode w = 0b0100011 ∧ funct3 w = op.funct3 ∧ a = rs1 w ∧ b = rs2 w ∧ v = immS w := by
  have hop := opcode_of_decode h
  rw [decode_store hop] at h
  obtain ⟨op', hstore, heq⟩ := Option.map_eq_some_iff.mp h
  injection heq with h1 h2 h3 h4
  subst h1
  exact ⟨hop, storeOp_eq_some hstore, h2.symm, h3.symm, h4.symm⟩

theorem decode_eq_branch {w : Word} {op : BranchOp} {a b : Reg} {v : BitVec 13}
    (h : decode w = some (.branch op a b v)) :
    opcode w = 0b1100011 ∧ branchOp (funct3 w) = some op ∧ a = rs1 w ∧ b = rs2 w ∧ v = immB w := by
  have hop := opcode_of_decode h
  rw [decode_branch hop] at h
  obtain ⟨op', hbranch, heq⟩ := Option.map_eq_some_iff.mp h
  injection heq with h1 h2 h3 h4
  subst h1
  exact ⟨hop, hbranch, h2.symm, h3.symm, h4.symm⟩

theorem decode_eq_lui {w : Word} {d : Reg} {v : BitVec 20} (h : decode w = some (.lui d v)) :
    opcode w = 0b0110111 ∧ d = rd w ∧ v = immU w := by
  have hop := opcode_of_decode h
  rw [decode_lui hop] at h
  cases h
  exact ⟨hop, rfl, rfl⟩

theorem decode_eq_auipc {w : Word} {d : Reg} {v : BitVec 20} (h : decode w = some (.auipc d v)) :
    opcode w = 0b0010111 ∧ d = rd w ∧ v = immU w := by
  have hop := opcode_of_decode h
  rw [decode_auipc hop] at h
  cases h
  exact ⟨hop, rfl, rfl⟩

theorem decode_eq_jal {w : Word} {d : Reg} {v : BitVec 21} (h : decode w = some (.jal d v)) :
    opcode w = 0b1101111 ∧ d = rd w ∧ v = immJ w := by
  have hop := opcode_of_decode h
  rw [decode_jal hop] at h
  cases h
  exact ⟨hop, rfl, rfl⟩

theorem decode_eq_jalr {w : Word} {d a : Reg} {v : BitVec 12}
    (h : decode w = some (.jalr d a v)) :
    opcode w = 0b1100111 ∧ funct3 w = 0b000 ∧ d = rd w ∧ a = rs1 w ∧ v = immI w := by
  have hop := opcode_of_decode h
  rw [decode_jalr hop] at h
  by_cases h3 : funct3 w = 0b000
  · rw [if_pos h3] at h
    cases h
    exact ⟨hop, h3, rfl, rfl, rfl⟩
  · rw [if_neg h3] at h
    cases h

end Isa
end CRiscV
