/-
Which words trap as illegal instructions, against the words that encode none.
-/
import CRiscV.Refinement.Memory

namespace CRiscV

/-- A word at the decode stage on its way through decode and execute. -/
def decodeExecute (residue : BitVec 8) (m : Machine) : Except Abort Machine := do
  let m ← coreCycle residue m
  if m.core.state = .execute then coreCycle residue m else return m

def Machine.TrapsIllegal (m : Machine) : Prop :=
  m.core.state = .trap ∧ m.core.csr mcause = wide TrapCause.illegalInstruction.code

/-- The word at the decode stage traps as illegal exactly when it encodes nothing,
without a failed assertion and with nothing else changed. -/
def Machine.Classifies (m : Machine) : Prop :=
  ∀ residue, ∃ m', decodeExecute residue m = .ok m' ∧
    (m'.TrapsIllegal ↔ Isa.decode m.core.instruction = none) ∧
    (Isa.decode m.core.instruction = none →
      m'.core.registers = m.core.registers ∧ m'.core.pc = m.core.pc ∧ m'.bus = m.bus)

/-! ## The three ways through the two stages -/

section Outcome

variable {m : Machine}

/-- The core as the execute stage finds it. -/
def Core.decodedTo (core : Core) (dec : Decoded) : Core :=
  { core with decoded := dec, state := .execute, cycle := core.cycle + 1 }

theorem decodeExecute_eq {residue : BitVec 8} {dec : Decoded} (hstate : m.core.state = .decode)
    (hdecode : decode m.core = { m.core with decoded := dec }) :
    decodeExecute residue m =
      execute (m.core.decodedTo dec) >>= fun core =>
        .ok ((m.withCore core).advance .memory) := by
  unfold decodeExecute
  rw [coreCycle_decode hstate hdecode, Transition.ok_bind]
  rfl

theorem classifies_of_continues {dec : Decoded} {core : Core} (hstate : m.core.state = .decode)
    (hdecode : decode m.core = { m.core with decoded := dec })
    (hexecute : execute (m.core.decodedTo dec) = .ok core) (hnext : core.state = .execute) :
    m.Classifies ↔ Isa.decode m.core.instruction ≠ none := by
  have hne : core.state ≠ .trap := by
    rw [hnext]
    decide
  have hrun : ∀ residue, decodeExecute residue m =
      .ok (m.withCore { core with state := .memory, cycle := core.cycle + 1 }) := by
    intro residue
    rw [decodeExecute_eq hstate hdecode, hexecute, Transition.ok_bind]
    simp only [Machine.advance, Machine.withCore, Core.advance_of_ne hne]
  have hnot : ¬ (m.withCore { core with
      state := .memory, cycle := core.cycle + 1 }).TrapsIllegal := by
    intro htraps
    have hmemory := htraps.1
    cases hmemory
  constructor
  · intro hclass hnone
    obtain ⟨m', hm', hiff, -⟩ := hclass 0
    rw [hrun] at hm'
    cases hm'
    exact hnot (hiff.mpr hnone)
  · intro hsome residue
    refine ⟨_, hrun residue, ?_, fun hnone => absurd hnone hsome⟩
    exact ⟨fun htraps => absurd htraps hnot, fun hnone => absurd hnone hsome⟩

theorem classifies_of_error {dec : Decoded} {e : Abort} (hstate : m.core.state = .decode)
    (hdecode : decode m.core = { m.core with decoded := dec })
    (hexecute : execute (m.core.decodedTo dec) = .error e) : ¬ m.Classifies := by
  intro hclass
  obtain ⟨m', hm', -⟩ := hclass 0
  rw [decodeExecute_eq hstate hdecode, hexecute] at hm'
  cases hm'

theorem classifies_of_trap {dec : Decoded} {core : Core} (hstate : m.core.state = .decode)
    (hdecode : decode m.core = { m.core with decoded := dec })
    (hexecute : execute (m.core.decodedTo dec) = .ok (causeTrap core .illegalInstruction))
    (hregs : core.registers = m.core.registers) (hpc : core.pc = m.core.pc) :
    m.Classifies ↔ Isa.decode m.core.instruction = none := by
  have hrun : ∀ residue, decodeExecute residue m =
      .ok ((m.withCore (causeTrap core .illegalInstruction)).advance .memory) := by
    intro residue
    rw [decodeExecute_eq hstate hdecode, hexecute, Transition.ok_bind]
  have htraps : ((m.withCore (causeTrap core .illegalInstruction)).advance .memory).TrapsIllegal :=
    ⟨rfl, causeTrap_mcause core _⟩
  constructor
  · intro hclass
    obtain ⟨m', hm', hiff, -⟩ := hclass 0
    rw [hrun] at hm'
    cases hm'
    exact hiff.mp htraps
  · intro hnone residue
    exact ⟨_, hrun residue, ⟨fun _ => hnone, fun _ => htraps⟩, fun _ => ⟨hregs, hpc, rfl⟩⟩

theorem classifies_of_unknown (hstate : m.core.state = .decode)
    (hformat : decodeTypeTable ((Isa.opcode m.core.instruction).setWidth 8) = .unknown) :
    m.Classifies ↔ Isa.decode m.core.instruction = none := by
  have hrun : ∀ residue, decodeExecute residue m =
      .ok ((m.withCore (decode m.core)).advance .execute) := by
    intro residue
    unfold decodeExecute coreCycle
    rw [hstate, decode_unknown hformat]
    rfl
  have htraps : ((m.withCore (decode m.core)).advance .execute).TrapsIllegal := by
    rw [decode_unknown hformat]
    exact ⟨rfl, causeTrap_mcause m.core _⟩
  constructor
  · intro hclass
    obtain ⟨m', hm', hiff, -⟩ := hclass 0
    rw [hrun] at hm'
    cases hm'
    exact hiff.mp htraps
  · intro hnone residue
    refine ⟨_, hrun residue, ⟨fun _ => hnone, fun _ => htraps⟩, fun _ => ?_⟩
    rw [decode_unknown hformat]
    exact ⟨rfl, rfl, rfl⟩

end Outcome

/-! ## The formats -/

section Formats

variable {core : Core}

/-- The pairs that the switch of the R format has labels for, with two bits of
`funct7` left. -/
def regLabel (f3 : BitVec 3) (f7 : BitVec 7) : Bool :=
  f7 >>> 5 == 0 || f7 >>> 5 == 1 && (f3 == 0b000 || f3 == 0b101)

def labelsR : List Word :=
  [Isa.RegOp.add, .sub, .sll, .slt, .sltu, .xor, .srl, .sra, .or, .and].map opReg

theorem executeR_none {op a b : Word} (h : op ∉ labelsR) : executeR op a b = none := by
  simp only [labelsR, List.map, opReg, List.mem_cons, List.not_mem_nil, or_false, not_or] at h
  unfold executeR
  simp only [h, if_false]

theorem executeR_some {op : Word} (a b : Word) (h : op ∈ labelsR) :
    ∃ v, executeR op a b = some v := by
  obtain ⟨op', -, rfl⟩ := List.mem_map.mp h
  exact ⟨_, executeR_opReg op' a b⟩

theorem op3_mem_labelsR {dec : Decoded} (hop : dec.opcode = 0b0110011) :
    dec.op3 ∈ labelsR ↔ regLabel dec.funct3 dec.funct7 = true := by
  unfold Decoded.op3
  rw [hop]
  generalize dec.funct3 = f3
  generalize dec.funct7 = f7
  revert f3 f7
  decide +kernel

theorem execute_r_none (hformat : core.decoded.optype = .r)
    (hvalue : executeR core.decoded.op3 core.decoded.rs1v core.decoded.rs2v = none) :
    execute core =
      .ok (causeTrap { core with decoded := { core.decoded with writeRd := true } }
        .illegalInstruction) := by
  unfold execute
  simp only [hformat, hvalue]

/-- Every encoding has a label. -/
theorem regOp_of_not_label {f3 : BitVec 3} {f7 : BitVec 7} (h : regLabel f3 f7 = false) :
    Isa.regOp f3 f7 = none := by
  revert f3 f7
  decide +kernel

def labelsI : List Word :=
  [opJalr, opLb, opLbu, opLhu, opLh, opLw, opAddi, opSlti, opSltiu, opXori, opOri, opAndi, opSlli,
    opSrli, opSrai]

theorem executeI_error (h : core.decoded.op3 ∉ labelsI) : executeI core = .error .assertion := by
  simp only [labelsI, List.mem_cons, List.not_mem_nil, or_false, not_or] at h
  unfold executeI
  simp only [h, or_self, if_false]

theorem op3_zero {dec : Decoded} (h7 : dec.funct7 = 0) : dec.op3 = dec.op2 := by
  unfold Decoded.op3 Decoded.op2
  rw [h7]
  simp

theorem executeS_error (h : core.decoded.op2 ∉ [opSb, opSh, opSw]) :
    executeS core = .error .assertion := by
  simp only [List.mem_cons, List.not_mem_nil, or_false, not_or] at h
  unfold executeS
  simp only [h, if_false]

/-- The execute stage returns and does not trap. -/
def Core.Continues (core : Core) : Prop :=
  ∃ core', execute core = .ok core' ∧ core'.state = core.state

theorem continues_b (hformat : core.decoded.optype = .b) : core.Continues := by
  unfold Core.Continues execute
  simp only [hformat]
  exact ⟨_, rfl, rfl⟩

theorem continues_u (hformat : core.decoded.optype = .u)
    (hop : core.decoded.opcode = 0b0110111 ∨ core.decoded.opcode = 0b0010111) :
    core.Continues := by
  unfold Core.Continues execute
  simp only [hformat]
  cases hop with
  | inl hlui =>
      rw [hlui]
      exact ⟨_, rfl, rfl⟩
  | inr hauipc =>
      rw [hauipc]
      exact ⟨_, rfl, rfl⟩

theorem continues_j (hformat : core.decoded.optype = .j) (hop : core.decoded.opcode = 0b1101111) :
    core.Continues := by
  unfold Core.Continues execute
  simp only [hformat]
  rw [hop]
  exact ⟨_, rfl, rfl⟩

theorem continues_jalr (hformat : core.decoded.optype = .i) (hop : core.decoded.op3 = opJalr) :
    core.Continues := by
  unfold Core.Continues
  rw [execute_i hformat]
  unfold executeI
  refine ⟨_, if_pos hop, rfl⟩

theorem continues_imm (hformat : core.decoded.optype = .i)
    (hop : core.decoded.opcode = 0b0010011) (h7 : core.decoded.funct7 = 0) :
    core.Continues := by
  unfold Core.Continues
  rw [execute_i hformat]
  cases himm : Isa.immOp core.decoded.funct3 with
  | some op => exact ⟨_, executeI_opImm (op3_imm hop (Isa.immOp_eq_some himm) h7), rfl⟩
  | none =>
      have hshift : core.decoded.funct3 = Isa.ShiftOp.slli.funct3 ∨
          core.decoded.funct3 = Isa.ShiftOp.srli.funct3 := by
        revert himm
        generalize core.decoded.funct3 = f3
        revert f3
        decide
      cases hshift with
      | inl hslli => exact ⟨_, executeI_shift (op3_shift hop hslli h7), rfl⟩
      | inr hsrli => exact ⟨_, executeI_shift (op3_shift hop hsrli h7), rfl⟩

theorem continues_load {op : Isa.LoadOp} (hformat : core.decoded.optype = .i)
    (hop : core.decoded.opcode = 0b0000011) (h3 : core.decoded.funct3 = op.funct3)
    (h7 : core.decoded.funct7 = 0) : core.Continues := by
  have hop3 : Decoded.op3 { core.decoded with writeRd := true } = opLoad op :=
    op3_load hop h3 h7
  unfold Core.Continues
  rw [execute_i hformat]
  have hload := executeI_load { core with decoded := { core.decoded with writeRd := true } } hop3
  unfold executeLoad at hload
  exact ⟨_, hload, rfl⟩

theorem continues_store {op : Isa.StoreOp} (hformat : core.decoded.optype = .s)
    (hop : core.decoded.opcode = 0b0100011) (h3 : core.decoded.funct3 = op.funct3) :
    core.Continues := by
  have hop2 : Decoded.op2 { core.decoded with
      writeMem := true
      memOffset := core.decoded.rs1v + core.decoded.seImm12 } = opStore op := op2_store hop h3
  unfold Core.Continues
  rw [execute_s hformat]
  exact ⟨_, executeS_store { core with
    decoded := { core.decoded with
      writeMem := true
      memOffset := core.decoded.rs1v + core.decoded.seImm12 } } hop2, rfl⟩

end Formats

/-! ## Classification -/

section Classification

variable {m : Machine} {dec : Decoded}

/-- A word that goes on, or fails an assertion and encodes nothing, is classified
exactly when it encodes an instruction. -/
theorem classifies_iff_valid (hstate : m.core.state = .decode)
    (hdecode : decode m.core = { m.core with decoded := dec })
    (houtcome : (m.core.decodedTo dec).Continues ∨
      execute (m.core.decodedTo dec) = .error .assertion ∧
        Isa.decode m.core.instruction = none) :
    m.Classifies ↔ Isa.decode m.core.instruction ≠ none := by
  cases houtcome with
  | inl hcontinues =>
      obtain ⟨core, hexecute, hnext⟩ := hcontinues
      exact classifies_of_continues hstate hdecode hexecute hnext
  | inr herror =>
      obtain ⟨hexecute, hnone⟩ := herror
      exact iff_of_false (classifies_of_error hstate hdecode hexecute) (fun h => h hnone)

theorem outcome_load (hop : Isa.opcode m.core.instruction = 0b0000011)
    (hformat : dec.optype = .i) (hopcode : dec.opcode = 0b0000011)
    (h3 : dec.funct3 = Isa.funct3 m.core.instruction) (h7 : dec.funct7 = 0) :
    (m.core.decodedTo dec).Continues ∨
      execute (m.core.decodedTo dec) = .error .assertion ∧
        Isa.decode m.core.instruction = none := by
  cases hload : Isa.loadOp (Isa.funct3 m.core.instruction) with
  | some op =>
      left
      exact continues_load hformat hopcode (h3.trans (Isa.loadOp_eq_some hload)) h7
  | none =>
      right
      have hunlabelled : dec.op3 ∉ labelsI := by
        rw [op3_zero h7, Decoded.op2, hopcode, h3]
        revert hload
        generalize Isa.funct3 m.core.instruction = f3
        revert f3
        decide
      constructor
      · rw [execute_i hformat]
        exact executeI_error hunlabelled
      · rw [Isa.decode_load hop, hload]
        rfl

theorem outcome_jalr (hop : Isa.opcode m.core.instruction = 0b1100111)
    (hformat : dec.optype = .i) (hopcode : dec.opcode = 0b1100111)
    (h3 : dec.funct3 = Isa.funct3 m.core.instruction) (h7 : dec.funct7 = 0) :
    (m.core.decodedTo dec).Continues ∨
      execute (m.core.decodedTo dec) = .error .assertion ∧
        Isa.decode m.core.instruction = none := by
  by_cases hzero : Isa.funct3 m.core.instruction = 0
  · left
    apply continues_jalr hformat
    show dec.op3 = opJalr
    rw [op3_zero h7, Decoded.op2, hopcode, h3, hzero]
    decide
  · right
    have hunlabelled : dec.op3 ∉ labelsI := by
      rw [op3_zero h7, Decoded.op2, hopcode, h3]
      revert hzero
      generalize Isa.funct3 m.core.instruction = f3
      revert f3
      decide
    constructor
    · rw [execute_i hformat]
      exact executeI_error hunlabelled
    · rw [Isa.decode_jalr hop, if_neg hzero]

theorem outcome_store (hop : Isa.opcode m.core.instruction = 0b0100011)
    (hformat : dec.optype = .s) (hopcode : dec.opcode = 0b0100011)
    (h3 : dec.funct3 = Isa.funct3 m.core.instruction) :
    (m.core.decodedTo dec).Continues ∨
      execute (m.core.decodedTo dec) = .error .assertion ∧
        Isa.decode m.core.instruction = none := by
  cases hstore : Isa.storeOp (Isa.funct3 m.core.instruction) with
  | some op =>
      left
      exact continues_store hformat hopcode (h3.trans (Isa.storeOp_eq_some hstore))
  | none =>
      right
      have hunlabelled : Decoded.op2 { dec with
          writeMem := true, memOffset := dec.rs1v + dec.seImm12 } ∉ [opSb, opSh, opSw] := by
        unfold Decoded.op2
        simp only [hopcode, h3]
        revert hstore
        generalize Isa.funct3 m.core.instruction = f3
        revert f3
        decide
      constructor
      · rw [execute_s hformat]
        exact executeS_error hunlabelled
      · rw [Isa.decode_store hop, hstore]
        rfl

/-- The switch of the R format has a label, or the word traps and encodes
nothing. -/
theorem classifies_reg (hstate : m.core.state = .decode)
    (hop : Isa.opcode m.core.instruction = 0b0110011) :
    m.Classifies ↔ (Isa.decode m.core.instruction = none →
      regLabel (Isa.funct3 m.core.instruction) (Isa.funct7 m.core.instruction) = false) := by
  have hdecode := decode_r hop
  have hformat : (decodeCommon m.core).optype = .r := by
    rw [decodeCommon_optype, hop]
    decide
  have hopcode : (decodeCommon m.core).opcode = 0b0110011 := by
    rw [decodeCommon_opcode, hop]
    decide
  have hlabel : Decoded.op3 { decodeCommon m.core with funct7 := Isa.funct7 m.core.instruction } ∈
      labelsR ↔ regLabel (decodeCommon m.core).funct3 (Isa.funct7 m.core.instruction) = true :=
    op3_mem_labelsR hopcode
  rw [decodeCommon_funct3] at hlabel
  cases hreg : regLabel (Isa.funct3 m.core.instruction) (Isa.funct7 m.core.instruction) with
  | true =>
      obtain ⟨v, hv⟩ := executeR_some (decodeCommon m.core).rs1v (decodeCommon m.core).rs2v
        (hlabel.mpr hreg)
      have hiff := classifies_of_continues hstate hdecode (execute_r hformat hv) rfl
      rw [hiff]
      simp
  | false =>
      have hnone : Isa.decode m.core.instruction = none := by
        rw [Isa.decode_reg hop, regOp_of_not_label hreg]
        rfl
      have hv : executeR (Decoded.op3 { decodeCommon m.core with
          funct7 := Isa.funct7 m.core.instruction }) (decodeCommon m.core).rs1v
          (decodeCommon m.core).rs2v = none :=
        executeR_none (fun hmem => by rw [hlabel.mp hmem] at hreg; cases hreg)
      have hiff := classifies_of_trap hstate hdecode (execute_r_none hformat hv) rfl rfl
      rw [hiff]
      simp [hnone]

theorem decode_of_unknown {w : Word}
    (hformat : decodeTypeTable ((Isa.opcode w).setWidth 8) = .unknown) :
    Isa.decode w = none ∨ Isa.decode w = some .fence := by
  cases hdecode : Isa.decode w with
  | none => exact Or.inl rfl
  | some i =>
      rw [Isa.opcode_of_decode hdecode] at hformat
      cases i with
      | fence => exact Or.inr rfl
      | _ =>
          simp only [Isa.Instr.opcode] at hformat
          exact absurd hformat (by decide)

/-- The opcodes of the table other than those of the R format and of the system
instructions; the words under the first five may be invalid. -/
def checkedOpcodes : List (BitVec 7) := [0b0000011, 0b0100011, 0b1100011, 0b1100111, 0b0010011]

def openOpcodes : List (BitVec 7) := [0b0110111, 0b0010111, 0b1101111]

theorem opcode_cases {op : BitVec 7} (hsystem : op ≠ 0b1110011)
    (hknown : decodeTypeTable (op.setWidth 8) ≠ .unknown) :
    op = 0b0110011 ∨ op ∈ checkedOpcodes ∨ op ∈ openOpcodes := by
  revert op
  decide

theorem classifies_checked (hstate : m.core.state = .decode)
    (hop : Isa.opcode m.core.instruction ∈ checkedOpcodes) :
    m.Classifies ↔ Isa.decode m.core.instruction ≠ none := by
  have hknown : decodeTypeTable ((Isa.opcode m.core.instruction).setWidth 8) ≠ .unknown := by
    revert hop
    generalize Isa.opcode m.core.instruction = op
    revert op
    decide
  obtain ⟨dec, hdecode, hformat, hopcode, h3, h7⟩ := decode_known hknown
  apply classifies_iff_valid hstate hdecode
  simp only [checkedOpcodes, List.mem_cons, List.not_mem_nil, or_false] at hop
  rcases hop with hop | hop | hop | hop | hop
  all_goals
    rw [hop] at hformat hopcode
    rw [hformat] at h7
  · exact outcome_load hop hformat hopcode h3 h7
  · exact outcome_store hop hformat hopcode h3
  · exact Or.inl (continues_b hformat)
  · exact outcome_jalr hop hformat hopcode h3 h7
  · exact Or.inl (continues_imm hformat hopcode h7)

/-- Every word under these opcodes is valid. -/
theorem classifies_open (hstate : m.core.state = .decode)
    (hop : Isa.opcode m.core.instruction ∈ openOpcodes) :
    m.Classifies ∧ Isa.decode m.core.instruction ≠ none := by
  have hknown : decodeTypeTable ((Isa.opcode m.core.instruction).setWidth 8) ≠ .unknown := by
    revert hop
    generalize Isa.opcode m.core.instruction = op
    revert op
    decide
  obtain ⟨dec, hdecode, hformat, hopcode, -, -⟩ := decode_known hknown
  have hiff := fun h => classifies_iff_valid hstate hdecode (Or.inl h)
  simp only [openOpcodes, List.mem_cons, List.not_mem_nil, or_false] at hop
  rcases hop with hop | hop | hop
  all_goals
    rw [hop] at hformat hopcode
  · have hsome : Isa.decode m.core.instruction ≠ none := by
      rw [Isa.decode_lui hop]
      nofun
    exact ⟨(hiff (continues_u hformat (Or.inl hopcode))).mpr hsome, hsome⟩
  · have hsome : Isa.decode m.core.instruction ≠ none := by
      rw [Isa.decode_auipc hop]
      nofun
    exact ⟨(hiff (continues_u hformat (Or.inr hopcode))).mpr hsome, hsome⟩
  · have hsome : Isa.decode m.core.instruction ≠ none := by
      rw [Isa.decode_jal hop]
      nofun
    exact ⟨(hiff (continues_j hformat hopcode)).mpr hsome, hsome⟩

/-- Where the code's classification of a word agrees with the instruction set's. -/
def classifiedWord (w : Word) : Prop :=
  Isa.decode w ≠ some .fence ∧
  (Isa.decode w = none → Isa.opcode w ∉ checkedOpcodes ∧
    (Isa.opcode w = 0b0110011 → regLabel (Isa.funct3 w) (Isa.funct7 w) = false))

theorem not_fence {w : Word} (hop : Isa.opcode w ≠ 0b0001111) : Isa.decode w ≠ some .fence := by
  intro hfence
  exact hop (Isa.opcode_of_decode hfence)

/-- The code classifies a word as the instruction set does exactly when the word is
not `FENCE` and not one of the invalid words that the switches let pass or assert
away. -/
theorem illegalInstruction_iff (hstate : m.core.state = .decode)
    (hsystem : Isa.opcode m.core.instruction ≠ 0b1110011) :
    m.Classifies ↔ classifiedWord m.core.instruction := by
  by_cases hunknown : decodeTypeTable ((Isa.opcode m.core.instruction).setWidth 8) = .unknown
  · rw [classifies_of_unknown hstate hunknown]
    cases decode_of_unknown hunknown with
    | inl hnone =>
        have hunchecked : Isa.opcode m.core.instruction ∉ checkedOpcodes ∧
            Isa.opcode m.core.instruction ≠ 0b0110011 := by
          revert hunknown
          generalize Isa.opcode m.core.instruction = op
          revert op
          decide
        refine iff_of_true hnone ⟨?_, fun _ => ⟨hunchecked.1, fun hop => absurd hop hunchecked.2⟩⟩
        rw [hnone]
        nofun
    | inr hfence =>
        refine iff_of_false ?_ (fun h => h.1 hfence)
        rw [hfence]
        nofun
  · rcases opcode_cases hsystem hunknown with hop | hop | hop
    · rw [classifies_reg hstate hop]
      have hunchecked : Isa.opcode m.core.instruction ∉ checkedOpcodes := by
        rw [hop]
        decide
      have hfence := not_fence (show Isa.opcode m.core.instruction ≠ 0b0001111 by rw [hop]; decide)
      constructor
      · intro hlabel
        exact ⟨hfence, fun hnone => ⟨hunchecked, fun _ => hlabel hnone⟩⟩
      · intro hclass hnone
        exact (hclass.2 hnone).2 hop
    · rw [classifies_checked hstate hop]
      constructor
      · intro hsome
        refine ⟨not_fence ?_, fun hnone => absurd hnone hsome⟩
        revert hop
        generalize Isa.opcode m.core.instruction = op
        revert op
        decide
      · intro hclass hnone
        exact (hclass.2 hnone).1 hop
    · obtain ⟨hclass, hsome⟩ := classifies_open hstate hop
      refine iff_of_true hclass ⟨not_fence ?_, fun hnone => absurd hnone hsome⟩
      revert hop
      generalize Isa.opcode m.core.instruction = op
      revert op
      decide

end Classification

/-- A core that has fetched a word. -/
def decodingMachine (w : Word) : Machine :=
  { core := { coreInit cpuInitCore 0 ramStart with state := .decode, instruction := w }
    bus := mainBus (programMmu [w])
    calls := [] }

theorem decodingMachine_zero : (decodingMachine 0).Classifies := by
  refine (illegalInstruction_iff rfl (by decide)).mpr ⟨?_, fun _ => ⟨?_, ?_⟩⟩
  all_goals decide

/-- `FENCE` traps. -/
theorem decodingMachine_fence :
    (decodingMachine 0x0ff0000f).core.state = .decode ∧
      Isa.opcode (decodingMachine 0x0ff0000f).core.instruction ≠ 0b1110011 ∧
      ¬ (decodingMachine 0x0ff0000f).Classifies := by
  refine ⟨rfl, by decide, ?_⟩
  rw [classifies_of_unknown rfl (by decide)]
  decide

end CRiscV
