/-
The jumps: when the execute stage sets a jump, and to which target, in terms of the
instruction set.
-/
import CRiscV.Refinement.Illegal

namespace CRiscV

/-! ## The switch of the B format -/

/-- The enumerator of `opcode_t` for a condition. -/
def opBranch : Isa.BranchOp → Word
  | .beq => opBeq
  | .bne => opBne
  | .blt => opBlt
  | .bge => opBge
  | .bltu => opBltu
  | .bgeu => opBgeu

theorem executeB_opBranch (op : Isa.BranchOp) (a b aluOut : Word) :
    executeB (opBranch op) a b aluOut = cBool (op.taken a b) := by
  cases op <;>
    simp [executeB, opBranch, Isa.BranchOp.taken, opOf, opBeq, opBne, opBlt, opBge, opBltu, opBgeu]

theorem op2_branch {dec : Decoded} {op : Isa.BranchOp} (hop : dec.opcode = 0b1100011)
    (h3 : Isa.branchOp dec.funct3 = some op) : dec.op2 = opBranch op := by
  unfold Decoded.op2
  rw [hop]
  revert h3
  generalize dec.funct3 = f3
  revert f3
  cases op <;> decide

def labelsB : List Word := [opBeq, opBne, opBlt, opBltu, opBge, opBgeu]

theorem opBranch_mem_labelsB (op : Isa.BranchOp) : opBranch op ∈ labelsB := by
  cases op <;> decide

theorem op2_not_mem_labelsB {dec : Decoded} (hop : dec.opcode = 0b1100011)
    (h3 : Isa.branchOp dec.funct3 = none) : dec.op2 ∉ labelsB := by
  unfold Decoded.op2
  rw [hop]
  revert h3
  generalize dec.funct3 = f3
  revert f3
  decide

/-- Without a label, the switch leaves what the last instruction computed. -/
theorem executeB_unlabelled {op : Word} (a b aluOut : Word) (h : op ∉ labelsB) :
    executeB op a b aluOut = aluOut := by
  simp only [labelsB, List.mem_cons, List.not_mem_nil, or_false, not_or] at h
  unfold executeB
  simp only [h, if_false]

theorem executeB_labelled {op : Word} (a b aluOut aluOut' : Word) (h : op ∈ labelsB) :
    executeB op a b aluOut' = executeB op a b aluOut := by
  have hbranch : ∃ cond, op = opBranch cond := by
    simp only [labelsB, List.mem_cons, List.not_mem_nil, or_false] at h
    rcases h with h | h | h | h | h | h
    · exact ⟨.beq, h⟩
    · exact ⟨.bne, h⟩
    · exact ⟨.blt, h⟩
    · exact ⟨.bltu, h⟩
    · exact ⟨.bge, h⟩
    · exact ⟨.bgeu, h⟩
  obtain ⟨cond, rfl⟩ := hbranch
  rw [executeB_opBranch, executeB_opBranch]

theorem cBool_eq_one_iff (b : Bool) : cBool b = 1 ↔ b = true := by
  cases b <;> decide

/-! ## Targets -/

/-- The execute stage sets a jump to this target. -/
inductive Core.Jumps (core : Core) : Word → Prop
  | jalr (format : core.decoded.optype = .i) (op : core.decoded.op3 = opJalr) :
      Jumps core (core.decoded.rs1v + core.decoded.seImm12)
  | branch (format : core.decoded.optype = .b)
      (taken : executeB core.decoded.op2 core.decoded.rs1v core.decoded.rs2v core.aluOut = 1) :
      Jumps core (core.pc + (core.decoded.imm12 ++ 0#1).signExtend 32)
  | jal (format : core.decoded.optype = .j) :
      Jumps core (core.pc + (core.decoded.imm20 ++ 0#1).signExtend 32)

section Execute

variable {core core' : Core}

theorem executeI_jalr (core : Core) (hop : core.decoded.op3 = opJalr) :
    executeI core = .ok { core with
      decoded := { core.decoded with
        isJump := true, jumpTarget := core.decoded.rs1v + core.decoded.seImm12 }
      aluOut := core.pc + 4 } := by
  unfold executeI
  exact if_pos hop

/-- No label of the I format but that of `JALR` touches the jump. -/
theorem executeI_jumps (hfresh : core.decoded.isJump = false) (hne : core.decoded.op3 ≠ opJalr) :
    Transition.Returns (fun c => c.decoded.isJump = false) (executeI core) := by
  unfold executeI
  dsimp only
  rw [if_neg hne]
  repeat' apply Transition.returns_ite
  all_goals first | exact Transition.returns_error _ | apply Transition.returns_ok
  all_goals
    dsimp only [executeLoad]
    exact hfresh

theorem executeS_jumps (hfresh : core.decoded.isJump = false) :
    Transition.Returns (fun c => c.decoded.isJump = false) (executeS core) := by
  unfold executeS
  repeat' apply Transition.returns_ite
  all_goals first | exact Transition.returns_error _ | exact Transition.returns_ok hfresh

theorem execute_u (hformat : core.decoded.optype = .u) :
    execute core =
      if core.decoded.opcode.setWidth 32 = opLui &&& 0x7f then
        .ok { core with
          decoded := { core.decoded with writeRd := true }
          aluOut := core.decoded.imm20.setWidth 32 <<< 12 }
      else if core.decoded.opcode.setWidth 32 = opAuipc &&& 0x7f then
        .ok { core with
          decoded := { core.decoded with writeRd := true }
          aluOut := (core.decoded.seImm20 <<< 12) + core.pc }
      else .error .assertion := by
  unfold execute
  simp only [hformat]

theorem execute_b (hformat : core.decoded.optype = .b) :
    execute core = .ok { core with
      decoded := { core.decoded with
        jumpTarget := core.pc + (core.decoded.imm12 ++ 0#1).signExtend 32
        isJump := executeB core.decoded.op2 core.decoded.rs1v core.decoded.rs2v core.aluOut == 1 }
      aluOut := executeB core.decoded.op2 core.decoded.rs1v core.decoded.rs2v core.aluOut } := by
  unfold execute
  simp only [hformat, branchOffset_eq]

theorem execute_j (hformat : core.decoded.optype = .j)
    (hop : core.decoded.opcode = 0b1101111) :
    execute core = .ok { core with
      decoded := { core.decoded with
        isJump := true
        writeRd := true
        jumpTarget := core.pc + (core.decoded.imm20 ++ 0#1).signExtend 32 }
      aluOut := core.pc + 4 } := by
  have hjal : core.decoded.opcode.setWidth 32 = opJal &&& 0x7f := by
    rw [hop]
    rfl
  unfold execute
  simp only [hformat]
  rw [if_pos hjal, ← jumpOffset_eq, BitVec.add_comm]
  rfl

/-- A jump that the execute stage leaves behind is one of the three. -/
theorem execute_jumps (hfresh : core.decoded.isJump = false)
    (hcoded : core.decoded.optype = .j → core.decoded.opcode ≠ 0)
    (h : execute core = .ok core') (hjump : core'.decoded.isJump = true) :
    core.Jumps core'.decoded.jumpTarget := by
  have hkept : core'.decoded.isJump ≠ false := by
    rw [hjump]
    nofun
  cases hformat : core.decoded.optype with
  | unknown =>
      unfold execute at h
      simp only [hformat] at h
      cases h
      exact absurd hfresh hkept
  | r =>
      unfold execute at h
      simp only [hformat] at h
      split at h
      · cases h
        exact absurd hfresh hkept
      · cases h
        exact absurd hfresh hkept
  | i =>
      rw [execute_i hformat] at h
      by_cases hjalr : core.decoded.op3 = opJalr
      · rw [executeI_jalr { core with decoded := { core.decoded with writeRd := true } } hjalr] at h
        cases h
        exact .jalr hformat hjalr
      · have hnone : Transition.Returns (fun c => c.decoded.isJump = false)
            (executeI { core with decoded := { core.decoded with writeRd := true } }) :=
          executeI_jumps hfresh hjalr
        exact absurd (hnone core' h) hkept
  | s =>
      rw [execute_s hformat] at h
      have hnone : Transition.Returns (fun c => c.decoded.isJump = false)
          (executeS { core with decoded := { core.decoded with
            writeMem := true
            memOffset := core.decoded.rs1v + core.decoded.seImm12 } }) := executeS_jumps hfresh
      exact absurd (hnone core' h) hkept
  | b =>
      rw [execute_b hformat] at h
      cases h
      exact .branch hformat (beq_iff_eq.mp hjump)
  | u =>
      rw [execute_u hformat] at h
      split_ifs at h
      · cases h
        exact absurd hfresh hkept
      · cases h
        exact absurd hfresh hkept
  | j =>
      unfold execute at h
      simp only [hformat] at h
      split_ifs at h with hjal hzero
      · cases h
        show core.Jumps (core.decoded.seImm20 <<< 1 + core.pc)
        rw [jumpOffset_eq, BitVec.add_comm]
        exact .jal hformat
      · exact absurd hzero (hcoded hformat)
  | c =>
      unfold execute at h
      simp only [hformat] at h
      split_ifs at h
      · cases h
        exact absurd hfresh hkept
      · cases h
        exact absurd hfresh hkept

end Execute

/-! ## The instruction set's jumps -/

/-- An instruction of the core at the decode stage that leaves the next word, and where
it goes.  A word under BRANCH that encodes nothing goes by what the instruction before
it has computed. -/
inductive Core.Leaves (core : Core) : Word → Prop
  | jal (rd : Isa.Reg) (offset : BitVec 21)
      (word : Isa.decode core.instruction = some (.jal rd offset)) :
      Leaves core (core.pc + offset.signExtend 32)
  | jalr (rd rs1 : Isa.Reg) (offset : BitVec 12)
      (word : Isa.decode core.instruction = some (.jalr rd rs1 offset)) :
      Leaves core (regR core.registers rs1 + offset.signExtend 32)
  | branch (op : Isa.BranchOp) (rs1 rs2 : Isa.Reg) (offset : BitVec 13)
      (word : Isa.decode core.instruction = some (.branch op rs1 rs2 offset))
      (taken : op.taken (regR core.registers rs1) (regR core.registers rs2) = true) :
      Leaves core (core.pc + offset.signExtend 32)
  | unlabelled (word : Isa.opcode core.instruction = 0b1100011)
      (invalid : Isa.branchOp (Isa.funct3 core.instruction) = none) (latch : core.aluOut = 1) :
      Leaves core (core.pc + (Isa.immB core.instruction).signExtend 32)

section Decode

variable {core core' : Core} {a : Word}

theorem opcode_of_b {op : BitVec 7} (h : decodeTypeTable (op.setWidth 8) = .b) :
    op = 0b1100011 := by
  revert op
  decide

theorem opcode_of_j {op : BitVec 7} (h : decodeTypeTable (op.setWidth 8) = .j) :
    op = 0b1101111 := by
  revert op
  decide

theorem fields_of_jalr {op : BitVec 7} {f3 : BitVec 3}
    (h : (op.setWidth 8).setWidth 32 ||| (f3.setWidth 32 <<< 7) = opJalr) :
    op = 0b1100111 ∧ f3 = 0b000 := by
  revert op f3
  decide

theorem decode_optype (core : Core) :
    (decode core).decoded.optype = decodeTypeTable ((Isa.opcode core.instruction).setWidth 8) := by
  by_cases hknown : decodeTypeTable ((Isa.opcode core.instruction).setWidth 8) = .unknown
  · rw [decode_unknown hknown]
    exact decodeCommon_optype core
  · obtain ⟨dec, hdecode, hoptype, -⟩ := decode_known hknown
    rw [hdecode]
    exact hoptype

/-- A jump that the execute stage sets is a jump of the word that was decoded. -/
theorem Core.Jumps.leaves (h : core'.Jumps a) (hdec : core'.decoded = (decode core).decoded)
    (hpc : core'.pc = core.pc) (hlatch : core'.aluOut = core.aluOut) : core.Leaves a := by
  cases h with
  | jalr hformat hop =>
      rw [hdec, decode_optype] at hformat
      have hdecoded := decode_i hformat
      rw [hdec, hdecoded, op3_zero rfl, Decoded.op2] at hop
      simp only [decodeCommon_opcode, decodeCommon_funct3] at hop
      obtain ⟨hopcode, h3⟩ := fields_of_jalr hop
      rw [hdec, hdecoded, seImm12_eq]
      simp only [decodeCommon_eq]
      refine .jalr (Isa.rd core.instruction) _ _ ?_
      rw [Isa.decode_jalr hopcode, if_pos h3]
  | branch hformat htaken =>
      rw [hdec, decode_optype] at hformat
      have hopcode := opcode_of_b hformat
      have hdecoded := decode_b hopcode
      rw [hdec, hdecoded, hlatch] at htaken
      have hcode : (decodeCommon core).opcode = 0b1100011 := by
        rw [decodeCommon_opcode, hopcode]
        rfl
      rw [hdec, hdecoded, hpc]
      show core.Leaves (core.pc + (Isa.immB core.instruction).signExtend 32)
      cases h3 : Isa.branchOp (Isa.funct3 core.instruction) with
      | some op =>
          have hop2 := op2_branch hcode (by rw [decodeCommon_funct3]; exact h3)
          refine .branch op (Isa.rs1 core.instruction) (Isa.rs2 core.instruction) _ ?_ ?_
          · rw [Isa.decode_branch hopcode, h3]
            rfl
          · apply (cBool_eq_one_iff _).mp
            rw [← executeB_opBranch op _ _ core.aluOut, ← hop2]
            rw [decodeCommon_eq] at htaken ⊢
            exact htaken
      | none =>
          have hop2 := op2_not_mem_labelsB hcode (by rw [decodeCommon_funct3]; exact h3)
          refine .unlabelled hopcode h3 ?_
          rw [← executeB_unlabelled (decodeCommon core).rs1v (decodeCommon core).rs2v core.aluOut
            hop2]
          exact htaken
  | jal hformat =>
      rw [hdec, decode_optype] at hformat
      have hopcode := opcode_of_j hformat
      rw [hdec, decode_j hopcode, hpc]
      exact .jal (Isa.rd core.instruction) (Isa.immJ core.instruction) (Isa.decode_jal hopcode)

end Decode

end CRiscV
