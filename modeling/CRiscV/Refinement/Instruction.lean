/-
What the emulator makes of every instruction, in the terms of the instruction set, and
what the decode and execute stages hand to the two stages behind them.
-/
import CRiscV.Isa.Platform
import CRiscV.Refinement.Branch
import CRiscV.Refinement.Memory

namespace CRiscV

/-- What an instruction does to a hart on the emulator. -/
def emulated : Isa.Effect := fun h i =>
  match i with
  | .reg op rd rs1 rs2 =>
      { h.next with reg := Isa.setReg h.reg rd (aluReg op (h.reg rs1) (h.reg rs2)) }
  | .imm op rd rs1 value =>
      { h.next with reg := Isa.setReg h.reg rd (aluImm op (h.reg rs1) value) }
  | .shift op rd rs1 amount =>
      { h.next with reg := Isa.setReg h.reg rd (aluShift op (h.reg rs1) amount) }
  | .load op rd rs1 offset =>
      let a := h.reg rs1 + offset.signExtend 32
      { h.next with
        reg := Isa.setReg h.reg rd (loaded op fun i => h.mem (a + BitVec.ofNat 32 i)) }
  | .jalr rd rs1 offset =>
      { h with
        pc := h.reg rs1 + offset.signExtend 32
        reg := Isa.setReg h.reg rd (h.pc + 4) }
  | .store .. | .branch .. | .lui .. | .auipc .. | .jal .. | .fence | .ecall | .ebreak =>
      Isa.exec h i

/-- Where the emulator and the instruction set agree on an instruction. -/
def Isa.Hart.Exact (h : Isa.Hart) : Isa.Instr → Prop
  | .reg op rd rs1 rs2 =>
      rd = 0 ∨ (op = .sra → (h.reg rs1).msb = false ∨ (h.reg rs2).toNat % 32 = 0)
  | .imm op rd rs1 value =>
      rd = 0 ∨ (op = .ori → value.msb = false ∨
        ∀ i, 12 ≤ i → i < 32 → (h.reg rs1).getLsbD i = true)
  | .shift op rd rs1 amount => rd = 0 ∨ (op = .srai → (h.reg rs1).msb = false ∨ amount = 0)
  | .load op rd rs1 offset =>
      let a := h.reg rs1 + offset.signExtend 32
      rd = 0 ∨ ((op = .lb → (h.mem a).msb = false) ∧ (op = .lh → (h.mem (a + 1)).msb = false))
  | .jalr _ rs1 offset => (h.reg rs1 + offset.signExtend 32).getLsbD 0 = false
  | .store .. | .branch .. | .lui .. | .auipc .. | .jal .. | .fence | .ecall | .ebreak => True

/-- Those are all the differences. -/
theorem emulated_eq_exec_iff (h : Isa.Hart) (i : Isa.Instr) :
    emulated h i = Isa.exec h i ↔ h.Exact i := by
  cases i with
  | reg op rd rs1 rs2 =>
      exact Isa.next_setReg_inj.trans (or_congr_right (aluReg_eq_eval_iff op _ _))
  | imm op rd rs1 value =>
      exact Isa.next_setReg_inj.trans (or_congr_right (aluImm_eq_eval_iff op _ _))
  | shift op rd rs1 amount =>
      exact Isa.next_setReg_inj.trans (or_congr_right (aluShift_eq_eval_iff op _ _))
  | load op rd rs1 offset =>
      refine Isa.next_setReg_inj.trans (or_congr_right ((loaded_eq_value_iff op _).trans ?_))
      rw [BitVec.add_zero]
      rfl
  | jalr rd rs1 offset =>
      refine retarget_inj.trans (Iff.trans ?_ (BitField.and_not_one_eq_iff _))
      exact eq_comm
  | store | branch | lui | auipc | jal | fence | ecall | ebreak =>
      exact ⟨fun _ => trivial, fun _ => rfl⟩

/-! ## Between the stages -/

def Isa.Instr.stores : Isa.Instr → Bool
  | .store .. => true
  | _ => false

/-- What the execute stage hands on for an instruction of the hart `h`. -/
structure Decoded.Carries (dec : Decoded) (value : Word) (h : Isa.Hart) (i : Isa.Instr) :
    Prop where
  /-- An instruction that leaves memory alone is finished but for the write back. -/
  computed : dec.readMem = false → dec.writeMem = false → i.stores = false ∧
    (h.after dec value).pc = (emulated h i).pc ∧ (h.after dec value).reg = (emulated h i).reg
  reads : dec.readMem = true → ∃ op rd rs1 offset, i = .load op rd rs1 offset ∧
    dec.rd = rd ∧ dec.writeRd = true ∧ dec.isJump = false ∧
    dec.memOffset = Isa.Instr.target h.reg i ∧ dec.memAccessWidth = loadWidth op
  writes : dec.readMem = false → dec.writeMem = true → ∃ op rs1 rs2 offset,
    i = .store op rs1 rs2 offset ∧ value = storeLatch op (h.reg rs2) ∧
    dec.writeRd = false ∧ dec.isJump = false ∧
    dec.memOffset = Isa.Instr.target h.reg i ∧ dec.memAccessWidth = storeWidth op

/-- The decode and the execute stage on the instruction `i`, neither of which traps. -/
structure Core.Issues (core : Core) (dec dec' : Decoded) (value : Word) : Prop where
  decodes : decode core = { core with decoded := dec }
  executes : ∀ core' : Core, core'.decoded = dec → core'.pc = core.pc →
    execute core' = .ok { core' with decoded := dec', aluOut := value }

/-- What a plain instruction but `FENCE` computes, whatever the latches held before. -/
def Core.Computes (core : Core) (h : Isa.Hart) (i : Isa.Instr) : Prop :=
  ∃ dec dec' value, core.Issues dec dec' value ∧ dec'.Carries value h i

section Computes

variable {core : Core} {h : Isa.Hart} {dec dec' : Decoded} {value : Word} {i : Isa.Instr}

/-- An instruction that does not go to memory. -/
theorem Core.Issues.computes (hissues : core.Issues dec dec' value)
    (hread : dec'.readMem = false) (hwrite : dec'.writeMem = false) (hstores : i.stores = false)
    (hpc : (if dec'.isJump then dec'.jumpTarget else h.pc + 4) = (emulated h i).pc)
    (hreg : (if dec'.writeRd then Isa.setReg h.reg dec'.rd value else h.reg) =
      (emulated h i).reg) : core.Computes h i := by
  refine ⟨dec, dec', value, hissues, ⟨fun _ _ => ⟨hstores, hpc, hreg⟩, ?_, ?_⟩⟩
  · intro htrue
    rw [hread] at htrue
    cases htrue
  · intro _ htrue
    rw [hwrite] at htrue
    cases htrue

/-- The core is at the hart's instruction, with the hart's registers. -/
structure Core.At (core : Core) (h : Isa.Hart) : Prop where
  pc : core.pc = h.pc
  reg : core.registers = h.reg
  zero : h.reg 0 = 0

theorem Core.At.rs1v (hat : core.At h) :
    (decodeCommon core).rs1v = h.reg (Isa.rs1 core.instruction) := by
  rw [← hat.reg]
  exact decodeCommon_rs1v (by rw [hat.reg, hat.zero])

theorem Core.At.rs2v (hat : core.At h) :
    (decodeCommon core).rs2v = h.reg (Isa.rs2 core.instruction) := by
  rw [← hat.reg]
  exact decodeCommon_rs2v (by rw [hat.reg, hat.zero])

/-! ### Arithmetic -/

theorem computes_reg {op : Isa.RegOp} {rd rs1 rs2 : Isa.Reg} (hat : core.At h)
    (hword : Isa.decode core.instruction = some (.reg op rd rs1 rs2)) :
    core.Computes h (.reg op rd rs1 rs2) := by
  obtain ⟨hop, h3, h7, rfl, rfl, rfl⟩ := Isa.decode_eq_reg hword
  have hexecute : ∀ core' : Core,
      core'.decoded = { decodeCommon core with funct7 := Isa.funct7 core.instruction } →
      core'.pc = core.pc → execute core' = .ok { core' with
        decoded := { decodeCommon core with
          funct7 := Isa.funct7 core.instruction
          writeRd := true }
        aluOut := aluReg op (h.reg (Isa.rs1 core.instruction))
          (h.reg (Isa.rs2 core.instruction)) } := by
    intro core' hdec _
    have hformat : core'.decoded.optype = .r := by
      rw [hdec]
      show (decodeCommon core).optype = .r
      rw [decodeCommon_optype, hop]
      rfl
    have hop3 : core'.decoded.op3 = opReg op := by
      rw [hdec]
      exact op3_reg (by simp [hop]) (by simpa using h3) h7
    have hvalue : executeR core'.decoded.op3 core'.decoded.rs1v core'.decoded.rs2v =
        some (aluReg op (h.reg (Isa.rs1 core.instruction))
          (h.reg (Isa.rs2 core.instruction))) := by
      rw [hop3, hdec]
      simp only [hat.rs1v, hat.rs2v]
      exact executeR_opReg op _ _
    rw [execute_r hformat hvalue, hdec]
  refine Core.Issues.computes ⟨decode_r hop, hexecute⟩ rfl rfl rfl rfl ?_
  exact congrArg (fun rd => Isa.setReg h.reg rd _) (decodeCommon_rd core)

/-- The instructions with an immediate operand, by what `executeI` computes. -/
theorem computes_immediate {rd : Isa.Reg} (hop : Isa.opcode core.instruction = 0b0010011)
    (hrd : rd = Isa.rd core.instruction)
    (hvalue : ∀ core' : Core, core'.decoded = decodedImm core →
      executeI core' = .ok { core' with aluOut := value })
    (hstores : i.stores = false) (hpc : (emulated h i).pc = h.pc + 4)
    (hreg : (emulated h i).reg = Isa.setReg h.reg rd value) : core.Computes h i := by
  have hformat : decodeTypeTable ((Isa.opcode core.instruction).setWidth 8) = .i := by
    rw [hop]
    rfl
  have hexecute : ∀ core' : Core,
      core'.decoded = { decodeCommon core with imm12 := Isa.immI core.instruction } →
      core'.pc = core.pc →
      execute core' = .ok { core' with decoded := decodedImm core, aluOut := value } := by
    intro core' hdec _
    have hoptype : core'.decoded.optype = .i := by
      rw [hdec]
      exact (decodeCommon_optype core).trans hformat
    rw [execute_i hoptype, hdec, hvalue _ rfl]
    rfl
  refine Core.Issues.computes ⟨decode_i hformat, hexecute⟩ rfl rfl hstores hpc.symm ?_
  rw [hreg, hrd]
  exact congrArg (fun rd => Isa.setReg h.reg rd _) (decodeCommon_rd core)

theorem decodedImm_opcode (hop : Isa.opcode core.instruction = 0b0010011) :
    (decodedImm core).opcode = 0b0010011 := by
  show (decodeCommon core).opcode = 0b0010011
  rw [decodeCommon_opcode, hop]
  rfl

theorem computes_imm {op : Isa.ImmOp} {rd rs1 : Isa.Reg} {v : BitVec 12} (hat : core.At h)
    (hword : Isa.decode core.instruction = some (.imm op rd rs1 v)) :
    core.Computes h (.imm op rd rs1 v) := by
  obtain ⟨hop, h3, hrd, rfl, rfl⟩ := Isa.decode_eq_imm hword
  refine computes_immediate hop hrd ?_ rfl rfl rfl
  intro core' hdec
  have hop3 : core'.decoded.op3 = opImm op := by
    rw [hdec]
    exact op3_imm (decodedImm_opcode hop) ((decodeCommon_funct3 core).trans h3) rfl
  rw [executeI_opImm hop3, hdec, ← hat.rs1v]
  rfl

theorem computes_shift {op : Isa.ShiftOp} {rd rs1 : Isa.Reg} {amount : BitVec 5}
    (hat : core.At h) (hword : Isa.decode core.instruction = some (.shift op rd rs1 amount)) :
    core.Computes h (.shift op rd rs1 amount) := by
  obtain ⟨hop, h3, -, hrd, rfl, rfl⟩ := Isa.decode_eq_shift hword
  refine computes_immediate hop hrd ?_ rfl rfl rfl
  intro core' hdec
  have hop3 : core'.decoded.op3 = if op = .slli then opSlli else opSrli := by
    rw [hdec]
    exact op3_shift (decodedImm_opcode hop) ((decodeCommon_funct3 core).trans h3) rfl
  have hshamt : (decodedImm core).shamt = Isa.rs2 core.instruction := decodeCommon_shamt core
  rw [executeI_shift hop3, hdec, ← hat.rs1v, hshamt]
  rfl

/-! ### Transfers of control -/

theorem computes_branch {op : Isa.BranchOp} {rs1 rs2 : Isa.Reg} {offset : BitVec 13}
    (hat : core.At h) (hword : Isa.decode core.instruction = some (.branch op rs1 rs2 offset)) :
    core.Computes h (.branch op rs1 rs2 offset) := by
  obtain ⟨hop, h3, rfl, rfl, rfl⟩ := Isa.decode_eq_branch hword
  have hexecute : ∀ core' : Core, core'.decoded = decodedBranch core → core'.pc = core.pc →
      execute core' = .ok { core' with
        decoded := { decodedBranch core with
          jumpTarget := h.pc + (Isa.immB core.instruction).signExtend 32
          isJump := op.taken (h.reg (Isa.rs1 core.instruction))
            (h.reg (Isa.rs2 core.instruction)) }
        aluOut := cBool (op.taken (h.reg (Isa.rs1 core.instruction))
          (h.reg (Isa.rs2 core.instruction))) } := by
    intro core' hdec hpc
    rw [execute_branch hop h3 hdec, hat.rs1v, hat.rs2v, hpc, hat.pc]
  refine Core.Issues.computes ⟨decode_b hop, hexecute⟩ rfl rfl rfl ?_ ?_
  · exact (congrArg Isa.Hart.pc (Isa.exec_branch h _ _ _ _)).symm
  · exact (congrArg Isa.Hart.reg (Isa.exec_branch h _ _ _ _)).symm

theorem computes_lui {rd : Isa.Reg} {v : BitVec 20}
    (hword : Isa.decode core.instruction = some (.lui rd v)) : core.Computes h (.lui rd v) := by
  obtain ⟨hop, rfl, rfl⟩ := Isa.decode_eq_lui hword
  refine Core.Issues.computes ⟨decode_u (by rw [hop]; rfl),
    fun core' hdec _ => execute_lui hop hdec⟩ rfl rfl rfl rfl ?_
  exact congrArg (fun rd => Isa.setReg h.reg rd _) (decodeCommon_rd core)

theorem computes_auipc {rd : Isa.Reg} {v : BitVec 20} (hat : core.At h)
    (hword : Isa.decode core.instruction = some (.auipc rd v)) :
    core.Computes h (.auipc rd v) := by
  obtain ⟨hop, rfl, rfl⟩ := Isa.decode_eq_auipc hword
  have hexecute : ∀ core' : Core, core'.decoded = decodedUpper core → core'.pc = core.pc →
      execute core' = .ok { core' with
        decoded := { decodedUpper core with writeRd := true }
        aluOut := h.pc + (Isa.immU core.instruction ++ 0#12) } := by
    intro core' hdec hpc
    rw [execute_auipc hop hdec, hpc, hat.pc]
  refine Core.Issues.computes ⟨decode_u (by rw [hop]; rfl), hexecute⟩ rfl rfl rfl rfl ?_
  exact congrArg (fun rd => Isa.setReg h.reg rd _) (decodeCommon_rd core)

theorem computes_jal {rd : Isa.Reg} {offset : BitVec 21} (hat : core.At h)
    (hword : Isa.decode core.instruction = some (.jal rd offset)) :
    core.Computes h (.jal rd offset) := by
  obtain ⟨hop, rfl, rfl⟩ := Isa.decode_eq_jal hword
  have hexecute : ∀ core' : Core, core'.decoded = decodedJal core → core'.pc = core.pc →
      execute core' = .ok { core' with
        decoded := { decodedJal core with
          isJump := true
          writeRd := true
          jumpTarget := h.pc + (Isa.immJ core.instruction).signExtend 32 }
        aluOut := h.pc + 4 } := by
    intro core' hdec hpc
    rw [execute_jal hop hdec, hpc, hat.pc]
  refine Core.Issues.computes ⟨decode_j hop, hexecute⟩ rfl rfl rfl rfl ?_
  exact congrArg (fun rd => Isa.setReg h.reg rd _) (decodeCommon_rd core)

theorem computes_jalr {rd rs1 : Isa.Reg} {offset : BitVec 12} (hat : core.At h)
    (hword : Isa.decode core.instruction = some (.jalr rd rs1 offset)) :
    core.Computes h (.jalr rd rs1 offset) := by
  obtain ⟨hop, h3, rfl, rfl, rfl⟩ := Isa.decode_eq_jalr hword
  have hexecute : ∀ core' : Core,
      core'.decoded = { decodeCommon core with imm12 := Isa.immI core.instruction } →
      core'.pc = core.pc → execute core' = .ok { core' with
        decoded := { decodedImm core with
          isJump := true
          jumpTarget := h.reg (Isa.rs1 core.instruction) +
            (Isa.immI core.instruction).signExtend 32 }
        aluOut := h.pc + 4 } := by
    intro core' hdec hpc
    rw [execute_jalr hop h3 hdec, hat.rs1v, hpc, hat.pc]
  refine Core.Issues.computes ⟨decode_i (by rw [hop]; rfl), hexecute⟩ rfl rfl rfl rfl ?_
  exact congrArg (fun rd => Isa.setReg h.reg rd _) (decodeCommon_rd core)

/-! ### Accesses -/

theorem issues_load {op : Isa.LoadOp} {rd rs1 : Isa.Reg} {offset : BitVec 12}
    (hat : core.At h) (hword : Isa.decode core.instruction = some (.load op rd rs1 offset)) :
    (decodedLoad core op).memOffset = h.reg rs1 + offset.signExtend 32 ∧
      (decodedLoad core op).rd = rd ∧
        ∃ dec value, core.Issues dec (decodedLoad core op) value := by
  obtain ⟨hop, h3, rfl, rfl, rfl⟩ := Isa.decode_eq_load hword
  have hformat : decodeTypeTable ((Isa.opcode core.instruction).setWidth 8) = .i := by
    rw [hop]
    rfl
  exact ⟨congrArg (· + _) hat.rs1v, decodeCommon_rd core, _, _, decode_i hformat,
    fun core' hdec _ => execute_load hop h3 hdec⟩

theorem computes_load {op : Isa.LoadOp} {rd rs1 : Isa.Reg} {offset : BitVec 12}
    (hat : core.At h) (hword : Isa.decode core.instruction = some (.load op rd rs1 offset)) :
    core.Computes h (.load op rd rs1 offset) := by
  obtain ⟨htarget, hrd, dec, value, hissues⟩ := issues_load hat hword
  refine ⟨dec, decodedLoad core op, value, hissues, ⟨nofun, ?_, nofun⟩⟩
  intro _
  exact ⟨op, _, _, _, rfl, hrd, rfl, rfl, htarget, rfl⟩

theorem issues_store {op : Isa.StoreOp} {rs1 rs2 : Isa.Reg} {offset : BitVec 12}
    (hat : core.At h) (hword : Isa.decode core.instruction = some (.store op rs1 rs2 offset)) :
    (decodedStore core op).memOffset = h.reg rs1 + offset.signExtend 32 ∧
      ∃ dec, core.Issues dec (decodedStore core op) (storeLatch op (h.reg rs2)) := by
  obtain ⟨hop, h3, rfl, rfl, rfl⟩ := Isa.decode_eq_store hword
  rw [← hat.rs2v]
  exact ⟨congrArg (· + _) hat.rs1v, _, decode_s hop, fun core' hdec _ => execute_store hop h3 hdec⟩

theorem computes_store {op : Isa.StoreOp} {rs1 rs2 : Isa.Reg} {offset : BitVec 12}
    (hat : core.At h) (hword : Isa.decode core.instruction = some (.store op rs1 rs2 offset)) :
    core.Computes h (.store op rs1 rs2 offset) := by
  obtain ⟨htarget, dec, hissues⟩ := issues_store hat hword
  refine ⟨dec, decodedStore core op, _, hissues, ⟨nofun, nofun, ?_⟩⟩
  intro _ _
  exact ⟨op, _, _, _, rfl, rfl, rfl, rfl, htarget, rfl⟩

/-- The emulator computes every plain instruction but `FENCE`. -/
theorem computes_plain (hat : core.At h) (hword : Isa.decode core.instruction = some i)
    (hplain : i.IsPlain) (hfence : i ≠ .fence) : core.Computes h i := by
  cases i with
  | reg => exact computes_reg hat hword
  | imm => exact computes_imm hat hword
  | shift => exact computes_shift hat hword
  | load => exact computes_load hat hword
  | store => exact computes_store hat hword
  | branch => exact computes_branch hat hword
  | lui => exact computes_lui hword
  | auipc => exact computes_auipc hat hword
  | jal => exact computes_jal hat hword
  | jalr => exact computes_jalr hat hword
  | fence => exact absurd rfl hfence
  | ecall | ebreak => cases hplain

end Computes

end CRiscV
