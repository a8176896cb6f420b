/-
The fields that the decode stage cuts out of a word are the fields of the
instruction set.
-/
import CRiscV.Core.Decode
import CRiscV.Core.Execute
import CRiscV.Data.BitField
import CRiscV.Isa.Encoding
import Mathlib.Tactic.IntervalCases

namespace CRiscV

theorem opcode_field (i : Word) : (i &&& 0x7f).setWidth 8 = (Isa.opcode i).setWidth 8 := by
  apply BitVec.eq_of_getLsbD_eq
  intro k hk
  have hmask : (0x7f : Word).getLsbD k = decide (k < 7) := by
    revert k
    decide
  simp only [Isa.opcode, BitVec.getLsbD_setWidth, BitVec.getLsbD_and, BitVec.getLsbD_extractLsb',
    hmask, Nat.zero_add]
  by_cases h7 : k < 7 <;> simp [h7]

theorem rs1_field (i : Word) : ((i >>> 15) &&& 31).setWidth 5 = Isa.rs1 i :=
  BitField.field_of_mask i 15 (by decide)

theorem rs2_field (i : Word) : ((i >>> 20) &&& 31).setWidth 5 = Isa.rs2 i :=
  BitField.field_of_mask i 20 (by decide)

theorem rd_field (i : Word) : ((i >>> 7) &&& 31).setWidth 5 = Isa.rd i :=
  BitField.field_of_mask i 7 (by decide)

theorem funct3_field (i : Word) : ((i >>> 12) &&& 7).setWidth 3 = Isa.funct3 i :=
  BitField.field_of_mask i 12 (by decide)

theorem funct7_field (i : Word) : (i >>> 25).setWidth 7 = Isa.funct7 i :=
  BitField.setWidth_ushiftRight i 25 7

theorem immI_field (i : Word) :
    ((i >>> 20) &&& (((1 : Word) <<< 12) - 1)).setWidth 12 = Isa.immI i :=
  BitField.field_of_mask i 20 (by decide)

theorem immS_field (i : Word) :
    (((i >>> 7) &&& (0b11111 : Word)) ||| ((i >>> 20) &&& (0xffffe0 : Word))).setWidth 12 =
      Isa.immS i := by
  apply BitVec.eq_of_getLsbD_eq
  intro k hk
  have hlow : (0b11111 : Word).getLsbD k = decide (k < 5) := by
    revert k
    decide
  have hhigh : (0xffffe0 : Word).getLsbD k = decide (5 ≤ k) := by
    revert k
    decide
  simp only [Isa.immS, BitVec.getLsbD_setWidth, BitVec.getLsbD_or, BitVec.getLsbD_and,
    BitVec.getLsbD_ushiftRight, BitVec.getLsbD_append, BitVec.getLsbD_extractLsb', hlow, hhigh]
  by_cases h5 : k < 5
  · simp [h5, hk, show ¬ 5 ≤ k by omega]
  · simp [h5, hk, show 5 ≤ k by omega, show k - 5 < 7 by omega,
      show 20 + k = 25 + (k - 5) by omega]

theorem immB_field (i : Word) : (decodeBimm i >>> 1).setWidth 12 = Isa.immBHalf i := by
  apply BitVec.eq_of_getLsbD_eq
  intro k hk
  simp only [decodeBimm, Isa.immBHalf, BitVec.getLsbD_setWidth, BitVec.getLsbD_ushiftRight,
    BitVec.getLsbD_or, BitVec.getLsbD_shiftLeft, BitVec.getLsbD_and, BitVec.getLsbD_append,
    BitVec.getLsbD_extractLsb']
  interval_cases k <;> simp

theorem immJ_field (i : Word) :
    ((decodeJimm i <<< 11).sshiftRight 12).setWidth 20 = Isa.immJHalf i := by
  apply BitVec.eq_of_getLsbD_eq
  intro k hk
  simp only [decodeJimm, Isa.immJHalf, BitVec.getLsbD_setWidth, BitVec.getLsbD_sshiftRight,
    BitVec.getLsbD_or, BitVec.getLsbD_shiftLeft, BitVec.getLsbD_and, BitVec.getLsbD_append,
    BitVec.getLsbD_extractLsb', BitVec.getLsbD_ushiftRight]
  interval_cases k <;> simp

theorem immU_field (i : Word) : ((i >>> 12) &&& 0xfffff).setWidth 20 = Isa.immU i :=
  BitField.field_of_mask i 12 (by decide)

/-- `decodeCommon` in terms of the instruction set's fields. -/
theorem decodeCommon_eq (core : Core) :
    decodeCommon core =
      { core.decoded with
        isJump := false
        writeRd := false
        writeMem := false
        readMem := false
        opcode := (Isa.opcode core.instruction).setWidth 8
        optype := decodeTypeTable ((Isa.opcode core.instruction).setWidth 8)
        rs1 := Isa.rs1 core.instruction
        rs1v := regR core.registers (Isa.rs1 core.instruction)
        rs2 := Isa.rs2 core.instruction
        rs2v := regR core.registers (Isa.rs2 core.instruction)
        funct3 := Isa.funct3 core.instruction
        shamt := Isa.rs2 core.instruction
        rd := Isa.rd core.instruction
        funct7 := 0 } := by
  unfold decodeCommon
  simp only [opcode_field, rs1_field, rs2_field, rd_field, funct3_field]

/-! ## The formats -/

section Formats

variable {core : Core}

@[simp] theorem decodeCommon_optype (core : Core) :
    (decodeCommon core).optype =
      decodeTypeTable ((Isa.opcode core.instruction).setWidth 8) := by
  rw [decodeCommon_eq]

@[simp] theorem decodeCommon_opcode (core : Core) :
    (decodeCommon core).opcode = (Isa.opcode core.instruction).setWidth 8 := by
  rw [decodeCommon_eq]

@[simp] theorem decodeCommon_funct3 (core : Core) :
    (decodeCommon core).funct3 = Isa.funct3 core.instruction := by
  rw [decodeCommon_eq]

@[simp] theorem decodeCommon_rd (core : Core) :
    (decodeCommon core).rd = Isa.rd core.instruction := by
  rw [decodeCommon_eq]

@[simp] theorem decodeCommon_shamt (core : Core) :
    (decodeCommon core).shamt = Isa.rs2 core.instruction := by
  rw [decodeCommon_eq]

theorem decodeCommon_rs1v (hzero : core.registers 0 = 0) :
    (decodeCommon core).rs1v = core.registers (Isa.rs1 core.instruction) := by
  rw [decodeCommon_eq]
  exact regR_eq hzero _

theorem decodeCommon_rs2v (hzero : core.registers 0 = 0) :
    (decodeCommon core).rs2v = core.registers (Isa.rs2 core.instruction) := by
  rw [decodeCommon_eq]
  exact regR_eq hzero _

theorem decode_r (hop : Isa.opcode core.instruction = 0b0110011) :
    decode core = { core with
      decoded := { decodeCommon core with funct7 := Isa.funct7 core.instruction } } := by
  have hformat : (decodeCommon core).optype = .r := by
    rw [decodeCommon_optype, hop]
    decide
  unfold decode
  simp only [hformat, funct7_field]

theorem decode_i
    (hformat : decodeTypeTable ((Isa.opcode core.instruction).setWidth 8) = .i) :
    decode core = { core with
      decoded := { decodeCommon core with imm12 := Isa.immI core.instruction } } := by
  rw [← decodeCommon_optype] at hformat
  unfold decode
  simp only [hformat, immI_field]

theorem decode_s (hop : Isa.opcode core.instruction = 0b0100011) :
    decode core = { core with
      decoded := { decodeCommon core with imm12 := Isa.immS core.instruction } } := by
  have hformat : (decodeCommon core).optype = .s := by
    rw [decodeCommon_optype, hop]
    decide
  unfold decode
  simp only [hformat, immS_field]

theorem decode_b (hop : Isa.opcode core.instruction = 0b1100011) :
    decode core = { core with
      decoded := { decodeCommon core with imm12 := Isa.immBHalf core.instruction } } := by
  have hformat : (decodeCommon core).optype = .b := by
    rw [decodeCommon_optype, hop]
    rfl
  unfold decode
  simp only [hformat, immB_field]

theorem decode_u
    (hformat : decodeTypeTable ((Isa.opcode core.instruction).setWidth 8) = .u) :
    decode core = { core with
      decoded := { decodeCommon core with imm20 := Isa.immU core.instruction } } := by
  rw [← decodeCommon_optype] at hformat
  unfold decode
  simp only [hformat, immU_field]

theorem decode_j (hop : Isa.opcode core.instruction = 0b1101111) :
    decode core = { core with
      decoded := { decodeCommon core with imm20 := Isa.immJHalf core.instruction } } := by
  have hformat : (decodeCommon core).optype = .j := by
    rw [decodeCommon_optype, hop]
    rfl
  unfold decode
  simp only [hformat, immJ_field]

/-- Every opcode of the table is decoded, with the fields that select an operation
in their places; only the R format keeps its `funct7`. -/
theorem decode_known
    (hformat : decodeTypeTable ((Isa.opcode core.instruction).setWidth 8) ≠ .unknown) :
    ∃ dec, decode core = { core with decoded := dec } ∧
      dec.optype = decodeTypeTable ((Isa.opcode core.instruction).setWidth 8) ∧
      dec.opcode = (Isa.opcode core.instruction).setWidth 8 ∧
      dec.funct3 = Isa.funct3 core.instruction ∧
      dec.funct7 = if dec.optype = .r then Isa.funct7 core.instruction else 0 := by
  have hoptype := decodeCommon_optype core
  have hopcode := decodeCommon_opcode core
  have hfunct3 := decodeCommon_funct3 core
  rw [← hoptype] at hformat ⊢
  unfold decode
  cases hopt : (decodeCommon core).optype with
  | unknown => exact absurd hopt hformat
  | r =>
      simp only [hopt]
      exact ⟨_, rfl, rfl, hopcode, hfunct3, funct7_field core.instruction⟩
  | i =>
      simp only [hopt]
      exact ⟨_, rfl, rfl, hopcode, hfunct3, rfl⟩
  | s =>
      simp only [hopt]
      exact ⟨_, rfl, rfl, hopcode, hfunct3, rfl⟩
  | b =>
      simp only [hopt]
      exact ⟨_, rfl, rfl, hopcode, hfunct3, rfl⟩
  | u =>
      simp only [hopt]
      exact ⟨_, rfl, rfl, hopcode, hfunct3, rfl⟩
  | j =>
      simp only [hopt]
      exact ⟨_, rfl, rfl, hopcode, hfunct3, rfl⟩
  | c =>
      simp only [hopt]
      exact ⟨_, rfl, hopt, hopcode, hfunct3, by rw [hopt]; rfl⟩

/-- Beyond what every format has in common, decode sets `funct7` and an immediate. -/
theorem decode_decoded (core : Core) : ∃ funct7 imm12 imm20,
    (decode core).decoded =
      { decodeCommon core with funct7 := funct7, imm12 := imm12, imm20 := imm20 } := by
  unfold decode
  cases hoptype : (decodeCommon core).optype with
  | r | i | s | b | u | j =>
      simp only [hoptype]
      exact ⟨_, _, _, rfl⟩
  | unknown | c =>
      simp only [hoptype, causeTrap]
      refine ⟨(decodeCommon core).funct7, (decodeCommon core).imm12, (decodeCommon core).imm20, ?_⟩
      rw [← hoptype]

theorem decode_unknown
    (hformat : decodeTypeTable ((Isa.opcode core.instruction).setWidth 8) = .unknown) :
    decode core = causeTrap { core with decoded := decodeCommon core } .illegalInstruction := by
  rw [← decodeCommon_optype] at hformat
  unfold decode
  simp only [hformat]

end Formats

/-- The offset that the B format adds to the program counter. -/
theorem branchOffset_eq (imm12 : BitVec 12) :
    (imm12.setWidth 32 <<< 20).sshiftRight 19 = (imm12 ++ 0#1).signExtend 32 :=
  BitField.signExtend_of_shifts_double imm12 (by omega)

theorem seImm20_eq (dec : Decoded) : dec.seImm20 = dec.imm20.signExtend 32 :=
  BitField.xor_sub_signBit dec.imm20 (by omega) (by omega)

/-- And the J format. -/
theorem jumpOffset_eq (dec : Decoded) :
    dec.seImm20 <<< 1 = (dec.imm20 ++ 0#1).signExtend 32 := by
  rw [seImm20_eq]
  exact BitField.signExtend_shiftLeft_one dec.imm20 (by omega)

/-- What the U format puts in front of twelve zeros, zero-extended or sign-extended
before the shift. -/
theorem upperImm_eq (imm20 : BitVec 20) : imm20.setWidth 32 <<< 12 = imm20 ++ 0#12 := by
  have hshift : imm20.setWidth 32 <<< 12 = (imm20.setWidth 32).setWidth 20 ++ 0#12 :=
    BitField.shiftLeft_eq_append _
  rw [hshift, BitVec.setWidth_setWidth_of_le _ (by omega), BitVec.setWidth_eq]

theorem upperOffset_eq (dec : Decoded) : dec.seImm20 <<< 12 = dec.imm20 ++ 0#12 := by
  have hshift : dec.imm20.signExtend 32 <<< 12 =
      (dec.imm20.signExtend 32).setWidth 20 ++ 0#12 :=
    BitField.shiftLeft_eq_append _
  rw [seImm20_eq, hshift, BitField.setWidth_signExtend _ (by omega)]

theorem seImm12_eq (dec : Decoded) : dec.seImm12 = dec.imm12.signExtend 32 :=
  BitField.signExtend_of_shifts dec.imm12 (by decide)

end CRiscV
