/-
The instructions that compute a register from registers and an immediate, against
the instruction set.
-/
import CRiscV.Refinement.Hart

namespace CRiscV

/-- An instruction that only computes a register, compared with any hart. -/
theorem Machine.Starts.computes_iff {residue : BitVec 8} {m m1 : Machine} {dec : Decoded}
    {value : Word} {h : Isa.Hart} (hstart : m.Starts residue m1)
    (hdecode : decode m1.core = { m1.core with decoded := dec })
    (hexecute : ∀ core : Core, core.decoded = dec →
      execute core = .ok { core with decoded := { dec with writeRd := true }, aluOut := value })
    (hread : dec.readMem = false) (hwrite : dec.writeMem = false) (hjump : dec.isJump = false) :
    (∀ rs : List (BitVec 8), rs.length = 4 → ∃ m', coreCycles (residue :: rs) m = .ok m' ∧
      m.Retires m' h ∧ m.bus.mmu.SameMemory m'.bus.mmu) ↔
      { m.hart.next with reg := Isa.setReg m.core.registers dec.rd value } = h := by
  apply Machine.retires_iff
  intro rs hlen
  obtain ⟨m', hrun, hkeeps⟩ :=
    hstart.plain hlen hdecode (fun core hdec _ => hexecute core hdec) hread hwrite
  have hhart : m.hart.after { dec with writeRd := true } value =
      { m.hart.next with reg := Isa.setReg m.core.registers dec.rd value } := by
    unfold Isa.Hart.after
    simp only [hjump, if_true, Bool.false_eq_true, if_false]
    rfl
  rw [hhart] at hrun
  exact ⟨m', hrun, hkeeps.memory⟩

/-! ## Register with register -/

/-- The enumerator of `opcode_t` for an operation. -/
def opReg : Isa.RegOp → Word
  | .add => opAdd
  | .sub => opSub
  | .sll => opSll
  | .slt => opSlt
  | .sltu => opSltu
  | .xor => opXor
  | .srl => opSrl
  | .sra => opSra
  | .or => opOr
  | .and => opAnd

/-- What the execute stage computes: the operation, but for the arithmetic shift,
whose operand has been cast to an unsigned type. -/
def aluReg (op : Isa.RegOp) (a b : Word) : Word :=
  if op = .sra then Isa.RegOp.srl.eval a b else op.eval a b

theorem op3_reg {dec : Decoded} {op : Isa.RegOp} (hop : dec.opcode = 0b0110011)
    (h3 : dec.funct3 = op.funct3) (h7 : dec.funct7 = op.funct7) : dec.op3 = opReg op := by
  unfold Decoded.op3
  rw [hop, h3, h7]
  cases op <;> decide

theorem executeR_opReg (op : Isa.RegOp) (a b : Word) :
    executeR (opReg op) a b = some (aluReg op a b) := by
  have hshift : b.toNat &&& 31 = b.toNat % 32 := Nat.and_two_pow_sub_one_eq_mod b.toNat 5
  cases op <;>
    simp [executeR, opReg, aluReg, Isa.RegOp.eval, opOf, opAdd, opSub, opSll, opSlt, opSltu,
      opXor, opSrl, opSra, opOr, opAnd, hshift, cBool, Isa.boolWord]

theorem aluReg_eq_eval_iff (op : Isa.RegOp) (a b : Word) :
    aluReg op a b = op.eval a b ↔ (op = .sra → a.msb = false ∨ b.toNat % 32 = 0) := by
  unfold aluReg
  by_cases hop : op = .sra
  · rw [if_pos hop, hop]
    have hamount : b.toNat % 32 < 32 := Nat.mod_lt _ (by decide)
    simpa [Isa.RegOp.eval] using BitField.ushiftRight_eq_sshiftRight_iff a hamount
  · simp [hop]

theorem execute_r {core : Core} {v : Word} (hformat : core.decoded.optype = .r)
    (hvalue : executeR core.decoded.op3 core.decoded.rs1v core.decoded.rs2v = some v) :
    execute core =
      .ok { core with decoded := { core.decoded with writeRd := true }, aluOut := v } := by
  unfold execute
  simp only [hformat, hvalue]

/-- A register instruction is carried out as the instruction set says exactly when
it is not an arithmetic shift that a logical one would tell apart. -/
theorem registerInstruction_iff {residue : BitVec 8} {m m1 : Machine} {op : Isa.RegOp}
    {rd rs1 rs2 : Isa.Reg} (hstart : m.Starts residue m1)
    (hword : Isa.decode m1.core.instruction = some (.reg op rd rs1 rs2)) :
    (∀ rs : List (BitVec 8), rs.length = 4 → ∃ m', coreCycles (residue :: rs) m = .ok m' ∧
      m.Retires m' (Isa.exec m.hart (.reg op rd rs1 rs2)) ∧
      m.bus.mmu.SameMemory m'.bus.mmu) ↔
      (op = .sra → rd = 0 ∨ (m.core.registers rs1).msb = false ∨
        (m.core.registers rs2).toNat % 32 = 0) := by
  obtain ⟨hop, h3, h7, rfl, rfl, rfl⟩ := Isa.decode_eq_reg hword
  have hregs := hstart.registers_eq
  have hzero := hstart.zero_kept
  have hvalue : ∀ core : Core,
      core.decoded = { decodeCommon m1.core with funct7 := Isa.funct7 m1.core.instruction } →
      execute core = .ok { core with
        decoded := { core.decoded with writeRd := true }
        aluOut := aluReg op (m.core.registers (Isa.rs1 m1.core.instruction))
          (m.core.registers (Isa.rs2 m1.core.instruction)) } := by
    intro core hdec
    have hformat : core.decoded.optype = .r := by
      rw [hdec]
      simp only [decodeCommon_optype, hop]
      decide
    have hop3 : core.decoded.op3 = opReg op := by
      rw [hdec]
      exact op3_reg (by simp [hop]) (by simpa using h3) h7
    apply execute_r hformat
    rw [hop3, hdec]
    simp only [decodeCommon_rs1v hzero, decodeCommon_rs2v hzero, hregs]
    exact executeR_opReg op _ _
  rw [hstart.computes_iff (decode_r hop) (fun core hdec => by rw [hvalue core hdec, hdec])
    rfl rfl rfl]
  simp only [decodeCommon_rd]
  have hvalues := aluReg_eq_eval_iff op (m.core.registers (Isa.rs1 m1.core.instruction))
    (m.core.registers (Isa.rs2 m1.core.instruction))
  refine Isa.next_setReg_inj.trans ((or_congr_right hvalues).trans ?_)
  by_cases hsra : op = .sra
  · simp only [hsra, true_implies]
  · simp only [hsra, false_implies, or_true]


/-- `add x7, x5, x6`. -/
def addMachine : Machine :=
  programMachine [0x006283b3] fun r => if r = 5 then 0xffffffff else if r = 6 then 2 else 0

theorem addMachine_refines :
    ∃ m', coreCycles [0, 0, 0, 0, 0] addMachine = .ok m' ∧
      addMachine.Retires m' (Isa.exec addMachine.hart (.reg .add 7 5 6)) ∧
      addMachine.bus.mmu.SameMemory m'.bus.mmu := by
  have hfetch : (coreCycle 0 addMachine).map (fun m => Isa.decode m.core.instruction) =
      .ok (some (.reg .add 7 5 6)) := rfl
  obtain ⟨m1, hm1, hword⟩ := Transition.exists_of_map_ok hfetch
  have hstart := programMachine_starts (by decide) hm1
  exact (registerInstruction_iff hstart hword).mpr (by decide) [0, 0, 0, 0] rfl

/-- `sra x7, x5, x6` with a negative `x5`. -/
def sraMachine : Machine :=
  programMachine [0x4062d3b3] fun r => if r = 5 then 0x80000000 else if r = 6 then 4 else 0

theorem sraMachine_not_refined :
    ∃ m1, sraMachine.Starts 0 m1 ∧
      Isa.decode m1.core.instruction = some (.reg .sra 7 5 6) ∧
      ¬ ∃ m', coreCycles [0, 0, 0, 0, 0] sraMachine = .ok m' ∧
        sraMachine.Retires m' (Isa.exec sraMachine.hart (.reg .sra 7 5 6)) := by
  have hfetch : (coreCycle 0 sraMachine).map (fun m => Isa.decode m.core.instruction) =
      .ok (some (.reg .sra 7 5 6)) := rfl
  have hrun : (coreCycles [0, 0, 0, 0, 0] sraMachine).map (fun m => m.core.registers 7) =
      .ok 0x08000000 := rfl
  obtain ⟨m1, hm1, hword⟩ := Transition.exists_of_map_ok hfetch
  refine ⟨m1, programMachine_starts (by decide) hm1, hword, ?_⟩
  exact not_retires_of (fun h => h.reg 7) hrun (by decide)

/-! ## Register with immediate -/

def opImm : Isa.ImmOp → Word
  | .addi => opAddi
  | .slti => opSlti
  | .sltiu => opSltiu
  | .xori => opXori
  | .ori => opOri
  | .andi => opAndi

/-- What the execute stage computes: `ORI` masks the immediate after its sign
extension. -/
def aluImm (op : Isa.ImmOp) (a : Word) (value : BitVec 12) : Word :=
  if op = .ori then a ||| value.setWidth 32 else op.eval a value

theorem op3_imm {dec : Decoded} {op : Isa.ImmOp} (hop : dec.opcode = 0b0010011)
    (h3 : dec.funct3 = op.funct3) (h7 : dec.funct7 = 0) : dec.op3 = opImm op := by
  unfold Decoded.op3
  rw [hop, h3, h7]
  cases op <;> decide

theorem signExtend_and_mask (value : BitVec 12) :
    value.signExtend 32 &&& 0xfff#32 = value.setWidth 32 := by
  apply BitVec.eq_of_getLsbD_eq
  intro i hi
  have hmask : (0xfff#32).getLsbD i = decide (i < 12) := by
    revert i
    decide
  rw [BitVec.getLsbD_and, BitVec.getLsbD_signExtend, BitVec.getLsbD_setWidth, hmask]
  by_cases hlow : i < 12
  · simp [hi, hlow]
  · simp [hlow, BitVec.getLsbD_of_ge value i (by omega)]

theorem executeI_opImm {core : Core} {op : Isa.ImmOp} (hop : core.decoded.op3 = opImm op) :
    executeI core =
      .ok { core with aluOut := aluImm op core.decoded.rs1v core.decoded.imm12 } := by
  have hmask := signExtend_and_mask core.decoded.imm12
  unfold executeI
  simp only [hop, seImm12_eq]
  cases op <;>
    simp [opImm, aluImm, Isa.ImmOp.eval, opOf, opJalr, opLb, opLbu, opLhu, opLh, opLw, opAddi,
      opSlti, opSltiu, opXori, opOri, opAndi, hmask, cBool, Isa.boolWord, addWrap]

theorem aluImm_eq_eval_iff (op : Isa.ImmOp) (a : Word) (value : BitVec 12) :
    aluImm op a value = op.eval a value ↔
      (op = .ori → value.msb = false ∨ ∀ i, 12 ≤ i → i < 32 → a.getLsbD i = true) := by
  unfold aluImm
  by_cases hop : op = .ori
  · rw [if_pos hop, hop]
    simpa [Isa.ImmOp.eval] using BitField.or_setWidth_eq_or_signExtend_iff a value
  · simp [hop]

/-! ### Shifts -/

/-- What the execute stage computes: the decode stage leaves `funct7` at zero, so
that the arithmetic shift takes the label of the logical one. -/
def aluShift (op : Isa.ShiftOp) (a : Word) (amount : BitVec 5) : Word :=
  if op = .srai then Isa.ShiftOp.srli.eval a amount else op.eval a amount

theorem op3_shift {dec : Decoded} {op : Isa.ShiftOp} (hop : dec.opcode = 0b0010011)
    (h3 : dec.funct3 = op.funct3) (h7 : dec.funct7 = 0) :
    dec.op3 = if op = .slli then opSlli else opSrli := by
  unfold Decoded.op3
  rw [hop, h3, h7]
  cases op <;> decide

theorem executeI_shift {core : Core} {op : Isa.ShiftOp}
    (hop : core.decoded.op3 = if op = .slli then opSlli else opSrli) :
    executeI core =
      .ok { core with aluOut := aluShift op core.decoded.rs1v core.decoded.shamt } := by
  unfold executeI
  simp only [hop]
  cases op <;>
    simp [aluShift, Isa.ShiftOp.eval, opOf, opJalr, opLb, opLbu, opLhu, opLh, opLw, opAddi,
      opSlti, opSltiu, opXori, opOri, opAndi, opSlli, opSrli]

theorem aluShift_eq_eval_iff (op : Isa.ShiftOp) (a : Word) (amount : BitVec 5) :
    aluShift op a amount = op.eval a amount ↔ (op = .srai → a.msb = false ∨ amount = 0) := by
  unfold aluShift
  by_cases hop : op = .srai
  · have hzero : amount = 0 ↔ amount.toNat = 0 := by
      rw [← BitVec.toNat_inj]
      rfl
    rw [if_pos hop, hop, hzero]
    simpa [Isa.ShiftOp.eval] using BitField.ushiftRight_eq_sshiftRight_iff a (by omega)
  · simp [hop]

theorem execute_i {core : Core} (hformat : core.decoded.optype = .i) :
    execute core = executeI { core with decoded := { core.decoded with writeRd := true } } := by
  unfold execute
  simp only [hformat]

/-- Where the code and the instruction set agree on an immediate instruction. -/
def immediateExact (h : Isa.Hart) : Isa.Instr → Prop
  | .imm .ori rd rs1 value =>
      rd = 0 ∨ value.msb = false ∨ ∀ i, 12 ≤ i → i < 32 → (h.reg rs1).getLsbD i = true
  | .shift .srai rd rs1 amount => rd = 0 ∨ (h.reg rs1).msb = false ∨ amount = 0
  | _ => True

/-- What the decode stage makes of an immediate instruction, as the execute stage
takes it. -/
def decodedImm (core : Core) : Decoded :=
  { decodeCommon core with imm12 := Isa.immI core.instruction, writeRd := true }

theorem Machine.Starts.computesI_iff {residue : BitVec 8} {m m1 : Machine} {value : Word}
    {h : Isa.Hart} (hstart : m.Starts residue m1)
    (hop : Isa.opcode m1.core.instruction = 0b0010011)
    (hvalue : ∀ core : Core, core.decoded = decodedImm m1.core →
      executeI core = .ok { core with aluOut := value }) :
    (∀ rs : List (BitVec 8), rs.length = 4 → ∃ m', coreCycles (residue :: rs) m = .ok m' ∧
      m.Retires m' h ∧ m.bus.mmu.SameMemory m'.bus.mmu) ↔
      { m.hart.next with
        reg := Isa.setReg m.core.registers (Isa.rd m1.core.instruction) value } = h := by
  have hformat : decodeTypeTable ((Isa.opcode m1.core.instruction).setWidth 8) = .i := by
    rw [hop]
    decide
  have hexecute : ∀ core : Core,
      core.decoded = { decodeCommon m1.core with imm12 := Isa.immI m1.core.instruction } →
      execute core = .ok { core with decoded := decodedImm m1.core, aluOut := value } := by
    intro core hdec
    have hoptype : core.decoded.optype = .i := by
      rw [hdec]
      exact (decodeCommon_optype m1.core).trans hformat
    rw [execute_i hoptype, hdec, hvalue _ rfl]
    rfl
  have hiff : _ ↔ _ = h := hstart.computes_iff (decode_i hformat) hexecute rfl rfl rfl
  rw [← decodeCommon_rd m1.core]
  exact hiff

/-- An immediate instruction is carried out as the instruction set says exactly
when it is neither an `ORI` nor an `SRAI` that shows the difference. -/
theorem immediateInstruction_iff {residue : BitVec 8} {m m1 : Machine} {i : Isa.Instr}
    (hstart : m.Starts residue m1) (hword : Isa.decode m1.core.instruction = some i)
    (hopcode : i.opcode = 0b0010011) :
    (∀ rs : List (BitVec 8), rs.length = 4 → ∃ m', coreCycles (residue :: rs) m = .ok m' ∧
      m.Retires m' (Isa.exec m.hart i) ∧ m.bus.mmu.SameMemory m'.bus.mmu) ↔
      immediateExact m.hart i := by
  have hregs := hstart.registers_eq
  have hzero := hstart.zero_kept
  have hop : Isa.opcode m1.core.instruction = 0b0010011 := by
    rw [Isa.opcode_of_decode hword, hopcode]
  have hrs1v : (decodedImm m1.core).rs1v =
      m.core.registers (Isa.rs1 m1.core.instruction) := by
    rw [← hregs]
    exact decodeCommon_rs1v hzero
  have hopcode' : (decodedImm m1.core).opcode = 0b0010011 := by
    unfold decodedImm
    rw [decodeCommon_opcode, hop]
    decide
  cases i with
  | imm op rd rs1 value =>
      obtain ⟨-, h3, rfl, rfl, rfl⟩ := Isa.decode_eq_imm hword
      have hvalue : ∀ core : Core, core.decoded = decodedImm m1.core →
          executeI core = .ok { core with
            aluOut := aluImm op (m.core.registers (Isa.rs1 m1.core.instruction))
              (Isa.immI m1.core.instruction) } := by
        intro core hdec
        have hop3 : core.decoded.op3 = opImm op := by
          rw [hdec]
          exact op3_imm hopcode' ((decodeCommon_funct3 m1.core).trans h3) rfl
        rw [executeI_opImm hop3, hdec, hrs1v]
        rfl
      have hvalues := aluImm_eq_eval_iff op (m.core.registers (Isa.rs1 m1.core.instruction))
        (Isa.immI m1.core.instruction)
      refine (hstart.computesI_iff hop hvalue).trans (Isa.next_setReg_inj.trans
        ((or_congr_right hvalues).trans ?_))
      cases op <;> simp [immediateExact, Machine.hart]
  | shift op rd rs1 amount =>
      obtain ⟨-, h3, -, rfl, rfl, rfl⟩ := Isa.decode_eq_shift hword
      have hvalue : ∀ core : Core, core.decoded = decodedImm m1.core →
          executeI core = .ok { core with
            aluOut := aluShift op (m.core.registers (Isa.rs1 m1.core.instruction))
              (Isa.rs2 m1.core.instruction) } := by
        intro core hdec
        have hop3 : core.decoded.op3 = if op = .slli then opSlli else opSrli := by
          rw [hdec]
          exact op3_shift hopcode' ((decodeCommon_funct3 m1.core).trans h3) rfl
        rw [executeI_shift hop3, hdec, hrs1v]
        unfold decodedImm
        rw [decodeCommon_shamt]
      have hvalues := aluShift_eq_eval_iff op (m.core.registers (Isa.rs1 m1.core.instruction))
        (Isa.rs2 m1.core.instruction)
      refine (hstart.computesI_iff hop hvalue).trans (Isa.next_setReg_inj.trans
        ((or_congr_right hvalues).trans ?_))
      cases op <;> simp [immediateExact, Machine.hart]
  | _ => simp [Isa.Instr.opcode] at hopcode

/-- `addi x7, x5, -1`. -/
def addiMachine : Machine := programMachine [0xfff28393] fun r => if r = 5 then 0x80000000 else 0

theorem addiMachine_refines :
    ∃ m', coreCycles [0, 0, 0, 0, 0] addiMachine = .ok m' ∧
      addiMachine.Retires m' (Isa.exec addiMachine.hart (.imm .addi 7 5 0xfff)) ∧
      addiMachine.bus.mmu.SameMemory m'.bus.mmu := by
  have hfetch : (coreCycle 0 addiMachine).map (fun m => Isa.decode m.core.instruction) =
      .ok (some (.imm .addi 7 5 0xfff)) := rfl
  obtain ⟨m1, hm1, hword⟩ := Transition.exists_of_map_ok hfetch
  have hstart := programMachine_starts (by decide) hm1
  exact (immediateInstruction_iff hstart hword rfl).mpr trivial [0, 0, 0, 0] rfl

/-- `ori x7, x5, -1`. -/
def oriMachine : Machine := programMachine [0xfff2e393] fun _ => 0

theorem oriMachine_not_refined :
    ∃ m1, oriMachine.Starts 0 m1 ∧
      Isa.decode m1.core.instruction = some (.imm .ori 7 5 0xfff) ∧
      ¬ ∃ m', coreCycles [0, 0, 0, 0, 0] oriMachine = .ok m' ∧
        oriMachine.Retires m' (Isa.exec oriMachine.hart (.imm .ori 7 5 0xfff)) := by
  have hfetch : (coreCycle 0 oriMachine).map (fun m => Isa.decode m.core.instruction) =
      .ok (some (.imm .ori 7 5 0xfff)) := rfl
  have hrun : (coreCycles [0, 0, 0, 0, 0] oriMachine).map (fun m => m.core.registers 7) =
      .ok 0x00000fff := rfl
  obtain ⟨m1, hm1, hword⟩ := Transition.exists_of_map_ok hfetch
  refine ⟨m1, programMachine_starts (by decide) hm1, hword, ?_⟩
  exact not_retires_of (fun h => h.reg 7) hrun (by decide)

end CRiscV
