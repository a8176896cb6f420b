/-
Branches, jumps and long immediates against the instruction set.

None of them goes to memory.  A jump empties the prefetch buffer; without one the buffer
stays as the fetch left it.
-/
import CRiscV.Refinement.Jump

namespace CRiscV

section Transfers

variable {residue : BitVec 8} {m m1 : Machine} {rs : List (BitVec 8)}

/-! ## Branches -/

/-- What the decode stage makes of a branch. -/
def decodedBranch (core : Core) : Decoded :=
  { decodeCommon core with imm12 := Isa.immBHalf core.instruction }

theorem execute_branch {core core' : Core} {op : Isa.BranchOp}
    (hop : Isa.opcode core.instruction = 0b1100011)
    (h3 : Isa.branchOp (Isa.funct3 core.instruction) = some op)
    (hdec : core'.decoded = decodedBranch core) :
    execute core' = .ok { core' with
      decoded := { decodedBranch core with
        jumpTarget := core'.pc + (Isa.immB core.instruction).signExtend 32
        isJump := op.taken (decodeCommon core).rs1v (decodeCommon core).rs2v }
      aluOut := cBool (op.taken (decodeCommon core).rs1v (decodeCommon core).rs2v) } := by
  have hcode : (decodedBranch core).opcode = 0b1100011 := by
    show (decodeCommon core).opcode = 0b1100011
    rw [decodeCommon_opcode, hop]
    rfl
  have hop2 : core'.decoded.op2 = opBranch op := by
    rw [hdec]
    exact op2_branch hcode ((congrArg _ (decodeCommon_funct3 core)).trans h3)
  have hformat : core'.decoded.optype = .b := by
    rw [hdec]
    show (decodeCommon core).optype = .b
    rw [decodeCommon_optype, hop]
    rfl
  have hjump : ∀ b : Bool, (cBool b == 1) = b := by
    intro b
    cases b with
    | true => rfl
    | false => rfl
  rw [execute_b hformat, hop2, executeB_opBranch, hdec, hjump]
  rfl

/-- Every branch goes where the instruction set says. -/
theorem branch_refines {op : Isa.BranchOp} {rs1 rs2 : Isa.Reg} {offset : BitVec 13}
    (hstart : m.Starts residue m1) (hlen : rs.length = 4)
    (hword : Isa.decode m1.core.instruction = some (.branch op rs1 rs2 offset)) :
    ∃ m', coreCycles (residue :: rs) m = .ok m' ∧
      m.Retires m' (Isa.exec m.hart (.branch op rs1 rs2 offset)) ∧
      m.Keeps m1 m' (op.taken (m.core.registers rs1) (m.core.registers rs2)) := by
  obtain ⟨hop, h3, rfl, rfl, rfl⟩ := Isa.decode_eq_branch hword
  have hrs1 := decodeCommon_rs1v hstart.zero_kept
  have hrs2 := decodeCommon_rs2v hstart.zero_kept
  rw [hstart.registers_eq] at hrs1 hrs2
  have hexecute : ∀ core : Core, core.decoded = decodedBranch m1.core → core.pc = m.core.pc →
      execute core = .ok { core with
        decoded := { decodedBranch m1.core with
          jumpTarget := m.core.pc + (Isa.immB m1.core.instruction).signExtend 32
          isJump := op.taken (m.core.registers (Isa.rs1 m1.core.instruction))
            (m.core.registers (Isa.rs2 m1.core.instruction)) }
        aluOut := cBool (op.taken (m.core.registers (Isa.rs1 m1.core.instruction))
          (m.core.registers (Isa.rs2 m1.core.instruction))) } := by
    intro core hdec hpc
    rw [execute_branch hop h3 hdec, hrs1, hrs2, hpc]
  obtain ⟨m', ⟨hcycles, hretires⟩, hkeeps⟩ :=
    hstart.plain hlen (decode_b hop) hexecute rfl rfl
  refine ⟨m', hcycles, ?_, hkeeps⟩
  rw [Isa.exec_branch]
  exact hretires

/-! ## Long immediates -/

/-- The instructions of the U and J formats. -/
def Isa.Instr.IsLong : Isa.Instr → Prop
  | .lui .. | .auipc .. | .jal .. => True
  | _ => False

/-- Whether an instruction of these formats is a jump. -/
def Isa.Instr.jumps : Isa.Instr → Bool
  | .jal .. => true
  | _ => false

/-- What the decode stage makes of the U format. -/
def decodedUpper (core : Core) : Decoded :=
  { decodeCommon core with imm20 := Isa.immU core.instruction }

/-- And of the J format. -/
def decodedJal (core : Core) : Decoded :=
  { decodeCommon core with imm20 := Isa.immJHalf core.instruction }

theorem execute_lui {core core' : Core} (hop : Isa.opcode core.instruction = 0b0110111)
    (hdec : core'.decoded = decodedUpper core) :
    execute core' = .ok { core' with
      decoded := { decodedUpper core with writeRd := true }
      aluOut := Isa.immU core.instruction ++ 0#12 } := by
  have hcode : (decodedUpper core).opcode = 0b0110111 := by
    show (decodeCommon core).opcode = 0b0110111
    rw [decodeCommon_opcode, hop]
    rfl
  have hformat : core'.decoded.optype = .u := by
    rw [hdec]
    show (decodeCommon core).optype = .u
    rw [decodeCommon_optype, hop]
    rfl
  rw [execute_u hformat, hdec, hcode, if_pos (by decide), upperImm_eq]
  rfl

theorem execute_auipc {core core' : Core} (hop : Isa.opcode core.instruction = 0b0010111)
    (hdec : core'.decoded = decodedUpper core) :
    execute core' = .ok { core' with
      decoded := { decodedUpper core with writeRd := true }
      aluOut := core'.pc + (Isa.immU core.instruction ++ 0#12) } := by
  have hcode : (decodedUpper core).opcode = 0b0010111 := by
    show (decodeCommon core).opcode = 0b0010111
    rw [decodeCommon_opcode, hop]
    rfl
  have hformat : core'.decoded.optype = .u := by
    rw [hdec]
    show (decodeCommon core).optype = .u
    rw [decodeCommon_optype, hop]
    rfl
  rw [execute_u hformat, hdec, hcode, if_neg (by decide), if_pos (by decide), upperOffset_eq,
    BitVec.add_comm]
  rfl

theorem execute_jal {core core' : Core} (hop : Isa.opcode core.instruction = 0b1101111)
    (hdec : core'.decoded = decodedJal core) :
    execute core' = .ok { core' with
      decoded := { decodedJal core with
        isJump := true
        writeRd := true
        jumpTarget := core'.pc + (Isa.immJ core.instruction).signExtend 32 }
      aluOut := core'.pc + 4 } := by
  have hcode : (decodedJal core).opcode = 0b1101111 := by
    show (decodeCommon core).opcode = 0b1101111
    rw [decodeCommon_opcode, hop]
    rfl
  have hformat : core'.decoded.optype = .j := by
    rw [hdec]
    show (decodeCommon core).optype = .j
    rw [decodeCommon_optype, hop]
    rfl
  rw [execute_j hformat (by rw [hdec, hcode]), hdec]
  rfl

/-- `LUI`, `AUIPC` and `JAL` are carried out as the instruction set says. -/
theorem longImmediate_refines {i : Isa.Instr} (hstart : m.Starts residue m1)
    (hlen : rs.length = 4) (hword : Isa.decode m1.core.instruction = some i) (hlong : i.IsLong) :
    ∃ m', coreCycles (residue :: rs) m = .ok m' ∧ m.Retires m' (Isa.exec m.hart i) ∧
      m.Keeps m1 m' i.jumps := by
  have hrd := decodeCommon_rd m1.core
  cases i with
  | lui rd value =>
      obtain ⟨hop, rfl, rfl⟩ := Isa.decode_eq_lui hword
      obtain ⟨m', ⟨hcycles, hretires⟩, hkeeps⟩ := hstart.plain hlen
        (decode_u (by rw [hop]; rfl)) (fun core hdec _ => execute_lui hop hdec) rfl rfl
      refine ⟨m', hcycles, ?_, hkeeps⟩
      rw [← hrd]
      exact hretires
  | auipc rd value =>
      obtain ⟨hop, rfl, rfl⟩ := Isa.decode_eq_auipc hword
      have hexecute : ∀ core : Core, core.decoded = decodedUpper m1.core →
          core.pc = m.core.pc → execute core = .ok { core with
            decoded := { decodedUpper m1.core with writeRd := true }
            aluOut := m.core.pc + (Isa.immU m1.core.instruction ++ 0#12) } := by
        intro core hdec hpc
        rw [execute_auipc hop hdec, hpc]
      obtain ⟨m', ⟨hcycles, hretires⟩, hkeeps⟩ := hstart.plain hlen
        (decode_u (by rw [hop]; rfl)) hexecute rfl rfl
      refine ⟨m', hcycles, ?_, hkeeps⟩
      rw [← hrd]
      exact hretires
  | jal rd offset =>
      obtain ⟨hop, rfl, rfl⟩ := Isa.decode_eq_jal hword
      have hexecute : ∀ core : Core, core.decoded = decodedJal m1.core →
          core.pc = m.core.pc → execute core = .ok { core with
            decoded := { decodedJal m1.core with
              isJump := true
              writeRd := true
              jumpTarget := m.core.pc + (Isa.immJ m1.core.instruction).signExtend 32 }
            aluOut := m.core.pc + 4 } := by
        intro core hdec hpc
        rw [execute_jal hop hdec, hpc]
      obtain ⟨m', ⟨hcycles, hretires⟩, hkeeps⟩ :=
        hstart.plain hlen (decode_j hop) hexecute rfl rfl
      refine ⟨m', hcycles, ?_, hkeeps⟩
      rw [← hrd]
      exact hretires
  | reg | imm | shift | load | store | branch | jalr | fence | ecall | ebreak => cases hlong

/-! ## Indirect jumps -/

theorem execute_jalr {core core' : Core} (hop : Isa.opcode core.instruction = 0b1100111)
    (h3 : Isa.funct3 core.instruction = 0b000)
    (hdec : core'.decoded =
      { decodeCommon core with imm12 := Isa.immI core.instruction }) :
    execute core' = .ok { core' with
      decoded := { decodedImm core with
        isJump := true
        jumpTarget := (decodeCommon core).rs1v + (Isa.immI core.instruction).signExtend 32 }
      aluOut := core'.pc + 4 } := by
  have hformat : core'.decoded.optype = .i := by
    rw [hdec]
    show (decodeCommon core).optype = .i
    rw [decodeCommon_optype, hop]
    rfl
  have hjalr : (decodedImm core).op3 = opJalr := by
    have hcode : (decodedImm core).opcode = 0b1100111 := by
      show (decodeCommon core).opcode = 0b1100111
      rw [decodeCommon_opcode, hop]
      rfl
    have hfunct3 : (decodedImm core).funct3 = 0b000 := (decodeCommon_funct3 core).trans h3
    rw [op3_zero rfl, Decoded.op2, hcode, hfunct3]
    rfl
  have hexecute := executeI_jalr { core' with decoded := decodedImm core } hjalr
  rw [seImm12_eq] at hexecute
  rw [execute_i hformat, hdec]
  exact hexecute

/-- Two results of an indirect jump differ only in where it goes. -/
theorem retarget_inj {h : Isa.Hart} {a a' : Word} {reg : Regs} :
    ({ h with pc := a, reg := reg } : Isa.Hart) = { h with pc := a', reg := reg } ↔ a = a' := by
  constructor
  · intro heq
    exact congrArg Isa.Hart.pc heq
  · intro heq
    rw [heq]

/-- `JALR` goes where the instruction set says exactly when the sum is even: the code
does not clear its low bit. -/
theorem indirectJump_iff {rd rs1 : Isa.Reg} {offset : BitVec 12} (hstart : m.Starts residue m1)
    (hword : Isa.decode m1.core.instruction = some (.jalr rd rs1 offset)) :
    (∀ rs : List (BitVec 8), rs.length = 4 → ∃ m', coreCycles (residue :: rs) m = .ok m' ∧
      m.Retires m' (Isa.exec m.hart (.jalr rd rs1 offset)) ∧ m.Keeps m1 m' true) ↔
      (m.core.registers rs1 + offset.signExtend 32).getLsbD 0 = false := by
  obtain ⟨hop, h3, rfl, rfl, rfl⟩ := Isa.decode_eq_jalr hword
  have hrd := decodeCommon_rd m1.core
  have hrs1 := decodeCommon_rs1v hstart.zero_kept
  rw [hstart.registers_eq] at hrs1
  have hexecute : ∀ core : Core,
      core.decoded = { decodeCommon m1.core with imm12 := Isa.immI m1.core.instruction } →
      core.pc = m.core.pc → execute core = .ok { core with
        decoded := { decodedImm m1.core with
          isJump := true
          jumpTarget := m.core.registers (Isa.rs1 m1.core.instruction) +
            (Isa.immI m1.core.instruction).signExtend 32 }
        aluOut := m.core.pc + 4 } := by
    intro core hdec hpc
    rw [execute_jalr hop h3 hdec, hrs1, hpc]
  have hrun : ∀ rs : List (BitVec 8), rs.length = 4 → ∃ m',
      (coreCycles (residue :: rs) m = .ok m' ∧ m.Retires m'
        { m.hart with
          pc := m.core.registers (Isa.rs1 m1.core.instruction) +
            (Isa.immI m1.core.instruction).signExtend 32
          reg := Isa.setReg m.core.registers (Isa.rd m1.core.instruction) (m.core.pc + 4) }) ∧
        m.Keeps m1 m' true := by
    intro rs hlen
    rw [← hrd]
    exact hstart.plain hlen (decode_i (by rw [hop]; rfl)) hexecute rfl rfl
  refine (Machine.retires_iff hrun).trans (retarget_inj.trans ?_)
  rw [← BitField.and_not_one_eq_iff, eq_comm]
  rfl

end Transfers

/-! ## On programs -/

/-- `blt x5, x6, -4` with a negative `x5`. -/
def bltMachine : Machine :=
  programMachine [0xfe62cee3] fun r => if r = 5 then 0xffffffff else if r = 6 then 2 else 0

theorem bltMachine_refines :
    ∃ m1 m', coreCycles [0, 0, 0, 0, 0] bltMachine = .ok m' ∧
      bltMachine.Retires m' (Isa.exec bltMachine.hart (.branch .blt 5 6 0x1ffc)) ∧
      bltMachine.Keeps m1 m' (Isa.BranchOp.taken .blt 0xffffffff 2) := by
  have hfetch : (coreCycle 0 bltMachine).map (fun m => Isa.decode m.core.instruction) =
      .ok (some (.branch .blt 5 6 0x1ffc)) := rfl
  obtain ⟨m1, hm1, hword⟩ := Transition.exists_of_map_ok hfetch
  exact ⟨m1, branch_refines (programMachine_starts (by decide) hm1) rfl hword⟩

/-- `jal x1, -4`. -/
def jalMachine : Machine := programMachine [0xffdff0ef] fun _ => 0

theorem jalMachine_refines :
    ∃ m1 m', coreCycles [0, 0, 0, 0, 0] jalMachine = .ok m' ∧
      jalMachine.Retires m' (Isa.exec jalMachine.hart (.jal 1 0x1ffffc)) ∧
      jalMachine.Keeps m1 m' true := by
  have hfetch : (coreCycle 0 jalMachine).map (fun m => Isa.decode m.core.instruction) =
      .ok (some (.jal 1 0x1ffffc)) := rfl
  obtain ⟨m1, hm1, hword⟩ := Transition.exists_of_map_ok hfetch
  exact ⟨m1, longImmediate_refines (programMachine_starts (by decide) hm1) rfl hword trivial⟩

/-- `jalr x5, x5, -4`. -/
def jalrMachine (x5 : Word) : Machine :=
  programMachine [0xffc282e7] fun r => if r = 5 then x5 else 0

theorem jalrMachine_refines :
    ∃ m1 m', coreCycles [0, 0, 0, 0, 0] (jalrMachine 0x1000c) = .ok m' ∧
      (jalrMachine 0x1000c).Retires m'
        (Isa.exec (jalrMachine 0x1000c).hart (.jalr 5 5 0xffc)) ∧
      (jalrMachine 0x1000c).Keeps m1 m' true := by
  have hfetch : (coreCycle 0 (jalrMachine 0x1000c)).map
      (fun m => Isa.decode m.core.instruction) = .ok (some (.jalr 5 5 0xffc)) := rfl
  obtain ⟨m1, hm1, hword⟩ := Transition.exists_of_map_ok hfetch
  exact ⟨m1, (indirectJump_iff (programMachine_starts (by decide) hm1) hword).mpr (by decide)
    [0, 0, 0, 0] rfl⟩

/-- An odd sum. -/
theorem jalrMachine_not_refined :
    ∃ m1, (jalrMachine 0x1000d).Starts 0 m1 ∧
      Isa.decode m1.core.instruction = some (.jalr 5 5 0xffc) ∧
      ¬ ∃ m', coreCycles [0, 0, 0, 0, 0] (jalrMachine 0x1000d) = .ok m' ∧
        (jalrMachine 0x1000d).Retires m'
          (Isa.exec (jalrMachine 0x1000d).hart (.jalr 5 5 0xffc)) := by
  have hfetch : (coreCycle 0 (jalrMachine 0x1000d)).map
      (fun m => Isa.decode m.core.instruction) = .ok (some (.jalr 5 5 0xffc)) := rfl
  have hrun : (coreCycles [0, 0, 0, 0, 0] (jalrMachine 0x1000d)).map (fun m => m.core.pc) =
      .ok 0x10009 := rfl
  obtain ⟨m1, hm1, hword⟩ := Transition.exists_of_map_ok hfetch
  refine ⟨m1, programMachine_starts (by decide) hm1, hword, ?_⟩
  exact not_retires_of Isa.Hart.pc hrun (by decide)

end CRiscV
