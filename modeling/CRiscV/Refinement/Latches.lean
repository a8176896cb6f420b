/-
The latches between the stages: two cores that differ in nothing else, from one fetch
to where each of them stops next.

Every stage sets what a later one reads, but for the switch of the B format, which has
no default label.
-/
import CRiscV.Core.Prefetch
import CRiscV.Refinement.Jump

namespace CRiscV

open Transition (Follows follows_ok follows_error follows_ite follows_bind)

/-! ## What two cores have in common -/

/-- The same core but for what an instruction leaves behind. -/
def Core.SameButLatches (core core' : Core) : Prop :=
  ∃ decoded aluOut trapRegs trapPc cycle, core' =
    { core with
      decoded := decoded, aluOut := aluOut, trapRegs := trapRegs, trapPc := trapPc, cycle := cycle }

structure Core.Same (core core' : Core) : Prop where
  state : core'.state = core.state
  trapState : core'.trapState = core.trapState
  pc : core'.pc = core.pc
  registers : core'.registers = core.registers
  csr : core'.csr = core.csr

/-- At the execute stage: the fields that its switches read, by format. -/
structure Decoded.Same (dec dec' : Decoded) : Prop where
  optype : dec'.optype = dec.optype
  opcode : dec'.opcode = dec.opcode
  rd : dec'.rd = dec.rd
  funct3 : dec'.funct3 = dec.funct3
  funct7 : dec'.funct7 = dec.funct7
  shamt : dec'.shamt = dec.shamt
  rs1v : dec'.rs1v = dec.rs1v
  rs2v : dec'.rs2v = dec.rs2v
  writeRd : dec'.writeRd = dec.writeRd
  writeMem : dec'.writeMem = dec.writeMem
  isJump : dec.isJump = false ∧ dec'.isJump = false
  readMem : dec.readMem = false ∧ dec'.readMem = false
  imm12 : dec.optype = .i ∨ dec.optype = .s ∨ dec.optype = .b → dec'.imm12 = dec.imm12
  imm20 : dec.optype = .u ∨ dec.optype = .j → dec'.imm20 = dec.imm20
  memOffset : dec.writeMem = true → dec'.memOffset = dec.memOffset

/-- Where the writeback stage goes. -/
def Core.next (core : Core) : Word :=
  if core.decoded.isJump then core.decoded.jumpTarget else core.pc + 4

/-- Behind the execute stage: what the memory and the writeback stages read. -/
structure Core.Pending (core core' : Core) : Prop where
  next : core'.next = core.next
  rd : core'.decoded.rd = core.decoded.rd
  writeRd : core'.decoded.writeRd = core.decoded.writeRd
  readMem : core'.decoded.readMem = core.decoded.readMem
  writeMem : core'.decoded.writeMem = core.decoded.writeMem
  access : core.decoded.readMem = true ∨ core.decoded.writeMem = true →
    core'.decoded.memOffset = core.decoded.memOffset ∧
      core'.decoded.memAccessWidth = core.decoded.memAccessWidth
  value : core.decoded.writeRd = true ∨ core.decoded.writeMem = true → core'.aluOut = core.aluOut

/-- The word does not show what was left in `aluOut`: it has a label, or the two values
send it the same way, or both ways are one. -/
def LatchFree (w aluOut aluOut' : Word) : Prop :=
  Isa.opcode w = 0b1100011 → Isa.branchOp (Isa.funct3 w) = none →
    (aluOut = 1 ↔ aluOut' = 1) ∨ (Isa.immB w).signExtend 32 = 4

section Decode

variable {core core' : Core}

theorem decode_same (hword : core'.instruction = core.instruction)
    (hregs : core'.registers = core.registers) :
    (decode core).decoded.Same (decode core').decoded := by
  have hcommon : decodeCommon core' = { decodeCommon core with
      imm12 := core'.decoded.imm12
      imm20 := core'.decoded.imm20
      memOffset := core'.decoded.memOffset
      jumpTarget := core'.decoded.jumpTarget
      memAccessWidth := core'.decoded.memAccessWidth } := by
    unfold decodeCommon
    simp only [hword, hregs]
  unfold decode
  simp only [hcommon, hword]
  cases hoptype : (decodeCommon core).optype with
  | i | s | b =>
      exact ⟨rfl, rfl, rfl, rfl, rfl, rfl, rfl, rfl, rfl, rfl, ⟨rfl, rfl⟩, ⟨rfl, rfl⟩, fun _ => rfl,
        nofun, nofun⟩
  | u | j =>
      exact ⟨rfl, rfl, rfl, rfl, rfl, rfl, rfl, rfl, rfl, rfl, ⟨rfl, rfl⟩, ⟨rfl, rfl⟩, nofun,
        fun _ => rfl, nofun⟩
  | r =>
      exact ⟨rfl, rfl, rfl, rfl, rfl, rfl, rfl, rfl, rfl, rfl, ⟨rfl, rfl⟩, ⟨rfl, rfl⟩, nofun, nofun,
        nofun⟩
  | c | unknown =>
      refine ⟨hoptype.symm, rfl, rfl, rfl, rfl, rfl, rfl, rfl, rfl, rfl, ⟨rfl, rfl⟩, ⟨rfl, rfl⟩, ?_,
        ?_, nofun⟩
      · intro hformat
        have hsystem : (decodeCommon core).optype = .i ∨ (decodeCommon core).optype = .s ∨
            (decodeCommon core).optype = .b := hformat
        rw [hoptype] at hsystem
        exact absurd hsystem nofun
      · intro hformat
        have hsystem : (decodeCommon core).optype = .u ∨ (decodeCommon core).optype = .j := hformat
        rw [hoptype] at hsystem
        exact absurd hsystem nofun

end Decode

/-! ## The execute stage -/

/-- What the execute stage leaves in two such cores. -/
structure Core.Executed (core core' : Core) : Prop where
  same : core.Same core'
  trapped : core.state = .trap → core.trapState = .enter
  pending : core.state ≠ .trap → core.Pending core'

section Execute

variable {core core' : Core} {width : Width} {v : Word}

theorem Decoded.Same.op2 {dec dec' : Decoded} (h : dec.Same dec') : dec'.op2 = dec.op2 := by
  unfold Decoded.op2
  rw [h.opcode, h.funct3]

theorem Decoded.Same.op3 {dec dec' : Decoded} (h : dec.Same dec') : dec'.op3 = dec.op3 := by
  unfold Decoded.op3
  rw [h.opcode, h.funct3, h.funct7]

theorem Decoded.Same.seImm12 {dec dec' : Decoded} (h : dec.Same dec')
    (hformat : dec.optype = .i ∨ dec.optype = .s ∨ dec.optype = .b) :
    dec'.seImm12 = dec.seImm12 := by
  unfold Decoded.seImm12
  rw [h.imm12 hformat]

theorem Decoded.Same.seImm20 {dec dec' : Decoded} (h : dec.Same dec')
    (hformat : dec.optype = .u ∨ dec.optype = .j) : dec'.seImm20 = dec.seImm20 := by
  unfold Decoded.seImm20
  rw [h.imm20 hformat]

theorem Decoded.Same.readMem_eq {dec dec' : Decoded} (h : dec.Same dec') :
    dec'.readMem = dec.readMem := h.readMem.2.trans h.readMem.1.symm

/-- Neither a load nor a store. -/
theorem Decoded.Same.no_access {dec dec' : Decoded} (h : dec.Same dec')
    (hmem : dec.writeMem = false) : ¬ (dec.readMem = true ∨ dec.writeMem = true) := by
  rw [h.readMem.1, hmem]
  exact fun haccess => haccess.elim nofun nofun

theorem next_of_not_jump (h : core.decoded.isJump = false) : core.next = core.pc + 4 := by
  unfold Core.next
  rw [h]
  exact if_neg Bool.false_ne_true

theorem Decoded.Same.next (h : core.decoded.Same core'.decoded) (hpc : core'.pc = core.pc) :
    core'.next = core.next := by
  rw [next_of_not_jump h.isJump.1, next_of_not_jump h.isJump.2, hpc]

/-- An instruction that computes a register and does not access memory. -/
theorem executed_value (hsame : core.Same core') (hdec : core.decoded.Same core'.decoded)
    (hne : core.state ≠ .trap) (hmem : core.decoded.writeMem = false) {v v' : Word}
    (hvalue : v' = v) : Core.Executed { core with aluOut := v } { core' with aluOut := v' } := by
  refine ⟨⟨hsame.state, hsame.trapState, hsame.pc, hsame.registers, hsame.csr⟩,
    fun htrap => absurd htrap hne, fun _ => ⟨hdec.next hsame.pc, hdec.rd, hdec.writeRd,
      hdec.readMem_eq, hdec.writeMem, ?_, fun _ => hvalue⟩⟩
  exact fun haccess => absurd haccess (hdec.no_access hmem)

theorem executed_load (hsame : core.Same core') (hdec : core.decoded.Same core'.decoded)
    (hne : core.state ≠ .trap) (hformat : core.decoded.optype = .i) (width : Width) (v : Word) :
    Core.Executed (executeLoad core width v) (executeLoad core' width v) := by
  have hoffset : core'.decoded.rs1v + core'.decoded.seImm12 =
      core.decoded.rs1v + core.decoded.seImm12 := by
    rw [hdec.rs1v, hdec.seImm12 (Or.inl hformat)]
  unfold executeLoad
  refine ⟨⟨hsame.state, hsame.trapState, hsame.pc, hsame.registers, hsame.csr⟩,
    fun htrap => absurd htrap hne, fun _ => ⟨?_, hdec.rd, hdec.writeRd, rfl, hdec.writeMem,
      fun _ => ⟨hoffset, rfl⟩, fun _ => rfl⟩⟩
  unfold Core.next
  dsimp only
  rw [hdec.isJump.1, hdec.isJump.2, hsame.pc]
  rfl

theorem executeI_executed (hsame : core.Same core') (hdec : core.decoded.Same core'.decoded)
    (hne : core.state ≠ .trap) (hformat : core.decoded.optype = .i)
    (hmem : core.decoded.writeMem = false) :
    Follows Core.Executed (executeI core) (executeI core') := by
  unfold executeI
  simp only [hdec.op3, hdec.seImm12 (Or.inl hformat), hdec.rs1v, hdec.rs2v, hdec.shamt]
  apply follows_ite Iff.rfl
  · apply follows_ok
    refine ⟨⟨hsame.state, hsame.trapState, hsame.pc, hsame.registers, hsame.csr⟩,
      fun htrap => absurd htrap hne, fun _ => ⟨rfl, hdec.rd, hdec.writeRd, hdec.readMem_eq,
        hdec.writeMem, fun haccess => absurd haccess (hdec.no_access hmem), ?_⟩⟩
    · intro _
      show core'.pc + 4 = core.pc + 4
      rw [hsame.pc]
  · have hload := executed_load hsame hdec hne hformat
    have hvalue : ∀ v, Core.Executed { core with aluOut := v } { core' with aluOut := v } :=
      fun _ => executed_value hsame hdec hne hmem rfl
    iterate 4 refine follows_ite Iff.rfl (follows_ok (hload _ _)) ?_
    iterate 9 refine follows_ite Iff.rfl (follows_ok (hvalue _)) ?_
    exact follows_error _ _

theorem executeS_executed (hsame : core.Same core') (hdec : core.decoded.Same core'.decoded)
    (hne : core.state ≠ .trap) : Follows Core.Executed (executeS core) (executeS core') := by
  have hstore : ∀ width v v', v' = v → Core.Executed
      { core with decoded := { core.decoded with memAccessWidth := width }, aluOut := v }
      { core' with decoded := { core'.decoded with memAccessWidth := width }, aluOut := v' } := by
    intro width v v' hv
    refine ⟨⟨hsame.state, hsame.trapState, hsame.pc, hsame.registers, hsame.csr⟩,
      fun htrap => absurd htrap hne, fun _ => ⟨?_, hdec.rd, hdec.writeRd, hdec.readMem_eq,
        hdec.writeMem, ?_, fun _ => hv⟩⟩
    · unfold Core.next
      dsimp only
      rw [hdec.isJump.1, hdec.isJump.2, hsame.pc]
      rfl
    · intro haccess
      rcases haccess with hread | hwrite
      · exact absurd (hdec.readMem.1.symm.trans hread) nofun
      · exact ⟨hdec.memOffset hwrite, rfl⟩
  unfold executeS
  simp only [hdec.op2]
  iterate 3 refine follows_ite Iff.rfl (follows_ok (hstore _ _ _ (by rw [hdec.rs2v]))) ?_
  exact follows_error _ _

theorem executed_trap (hsame : core.Same core') (cause : TrapCause) :
    (causeTrap core cause).Executed (causeTrap core' cause) := by
  refine ⟨⟨rfl, rfl, hsame.pc, hsame.registers, ?_⟩, fun _ => rfl, fun hne => absurd rfl hne⟩
  unfold causeTrap
  dsimp only
  rw [hsame.csr]

theorem Decoded.Same.setWriteRd {dec dec' : Decoded} (h : dec.Same dec') :
    Decoded.Same { dec with writeRd := true } { dec' with writeRd := true } :=
  ⟨h.optype, h.opcode, h.rd, h.funct3, h.funct7, h.shamt, h.rs1v, h.rs2v, rfl, h.writeMem,
    h.isJump, h.readMem, h.imm12, h.imm20, h.memOffset⟩

/-- A branch writes nothing, so that only the way it goes is left of `aluOut`. -/
theorem execute_b_executed (hsame : core.Same core') (hdec : core.decoded.Same core'.decoded)
    (hne : core.state ≠ .trap) (hformat : core.decoded.optype = .b)
    (hrd : core.decoded.writeRd = false) (hmem : core.decoded.writeMem = false)
    (hfree : core.decoded.op2 ∉ labelsB → (core.aluOut = 1 ↔ core'.aluOut = 1) ∨
      (core.decoded.imm12 ++ 0#1).signExtend 32 = 4) :
    Follows Core.Executed (execute core) (execute core') := by
  unfold execute
  simp only [hformat, hdec.optype.trans hformat]
  apply follows_ok
  refine ⟨⟨hsame.state, hsame.trapState, hsame.pc, hsame.registers, hsame.csr⟩,
    fun htrap => absurd htrap hne, fun _ => ⟨?_, hdec.rd, hdec.writeRd, hdec.readMem_eq,
      hdec.writeMem, fun haccess => absurd haccess (hdec.no_access hmem), ?_⟩⟩
  · unfold Core.next
    dsimp only
    rw [hdec.op2, hdec.rs1v, hdec.rs2v, hsame.pc, hdec.imm12 (Or.inr (Or.inr hformat)),
      branchOffset_eq]
    by_cases hlabel : core.decoded.op2 ∈ labelsB
    · rw [executeB_labelled _ _ core.aluOut core'.aluOut hlabel]
    · rw [executeB_unlabelled _ _ _ hlabel, executeB_unlabelled _ _ _ hlabel]
      rcases hfree hlabel with hway | hoffset
      · simp only [beq_iff_eq, hway]
      · rw [hoffset, ite_self, ite_self]
  · intro hvalue
    rcases hvalue with hwriteRd | hwriteMem
    · exact absurd (hrd.symm.trans hwriteRd) nofun
    · exact absurd (hmem.symm.trans hwriteMem) nofun

theorem execute_executed (hsame : core.Same core') (hdec : core.decoded.Same core'.decoded)
    (hne : core.state ≠ .trap) (hrd : core.decoded.writeRd = false)
    (hmem : core.decoded.writeMem = false)
    (hjal : core.decoded.optype = .j → core.decoded.opcode = 0b1101111)
    (hfree : core.decoded.optype = .b → core.decoded.op2 ∉ labelsB →
      (core.aluOut = 1 ↔ core'.aluOut = 1) ∨ (core.decoded.imm12 ++ 0#1).signExtend 32 = 4) :
    Follows Core.Executed (execute core) (execute core') := by
  have hsame' : ∀ dec dec' : Decoded,
      Core.Same { core with decoded := dec } { core' with decoded := dec' } :=
    fun _ _ => ⟨hsame.state, hsame.trapState, hsame.pc, hsame.registers, hsame.csr⟩
  have hvalue : ∀ v v', v' = v → Core.Executed
      { core with decoded := { core.decoded with writeRd := true }, aluOut := v }
      { core' with decoded := { core'.decoded with writeRd := true }, aluOut := v' } :=
    fun _ _ => executed_value (hsame' _ _) hdec.setWriteRd hne hmem
  cases hformat : core.decoded.optype with
  | b => exact execute_b_executed hsame hdec hne hformat hrd hmem (hfree hformat)
  | i =>
      rw [execute_i hformat, execute_i (hdec.optype.trans hformat)]
      exact executeI_executed (hsame' _ _) hdec.setWriteRd hne hformat hmem
  | s =>
      have hoffset : core'.decoded.rs1v + core'.decoded.seImm12 =
          core.decoded.rs1v + core.decoded.seImm12 := by
        rw [hdec.rs1v, hdec.seImm12 (Or.inr (Or.inl hformat))]
      rw [execute_s hformat, execute_s (hdec.optype.trans hformat), hoffset]
      refine executeS_executed (hsame' _ _) ?_ hne
      exact ⟨hdec.optype, hdec.opcode, hdec.rd, hdec.funct3, hdec.funct7, hdec.shamt, hdec.rs1v,
        hdec.rs2v, hdec.writeRd, rfl, hdec.isJump, hdec.readMem, hdec.imm12, hdec.imm20,
        fun _ => rfl⟩
  | unknown =>
      unfold execute
      simp only [hformat, hdec.optype.trans hformat]
      exact follows_ok (executed_trap hsame _)
  | c =>
      unfold execute
      simp only [hformat, hdec.optype.trans hformat, hdec.opcode]
      exact follows_ite Iff.rfl (follows_ok (executed_trap hsame _))
        (follows_ok (executed_trap hsame _))
  | r =>
      have hvalues : executeR core'.decoded.op3 core'.decoded.rs1v core'.decoded.rs2v =
          executeR core.decoded.op3 core.decoded.rs1v core.decoded.rs2v := by
        rw [hdec.op3, hdec.rs1v, hdec.rs2v]
      cases hresult : executeR core.decoded.op3 core.decoded.rs1v core.decoded.rs2v with
      | some v =>
          rw [execute_r hformat hresult,
            execute_r (hdec.optype.trans hformat) (hvalues.trans hresult)]
          exact follows_ok (hvalue v v rfl)
      | none =>
          rw [execute_r_none hformat hresult,
            execute_r_none (hdec.optype.trans hformat) (hvalues.trans hresult)]
          exact follows_ok (executed_trap (hsame' _ _) _)
  | u =>
      rw [execute_u hformat, execute_u (hdec.optype.trans hformat), hdec.opcode]
      refine follows_ite Iff.rfl (follows_ok (hvalue _ _ ?_)) ?_
      · rw [hdec.imm20 (Or.inl hformat)]
      · refine follows_ite Iff.rfl (follows_ok (hvalue _ _ ?_)) (follows_error _ _)
        rw [hdec.seImm20 (Or.inl hformat), hsame.pc]
  | j =>
      have hop := hjal hformat
      rw [execute_j hformat hop, execute_j (hdec.optype.trans hformat) (hdec.opcode.trans hop)]
      apply follows_ok
      refine ⟨⟨hsame.state, hsame.trapState, hsame.pc, hsame.registers, hsame.csr⟩,
        fun htrap => absurd htrap hne, fun _ => ⟨?_, hdec.rd, rfl, hdec.readMem_eq,
          hdec.writeMem, fun haccess => absurd haccess (hdec.no_access hmem), ?_⟩⟩
      · show core'.pc + (core'.decoded.imm20 ++ 0#1).signExtend 32 =
          core.pc + (core.decoded.imm20 ++ 0#1).signExtend 32
        rw [hdec.imm20 (Or.inr hformat), hsame.pc]
      · intro _
        show core'.pc + 4 = core.pc + 4
        rw [hsame.pc]

end Execute

/-! ## The memory stage -/

section Memory

variable {m m' : Machine} {residue : BitVec 8}

theorem memoryAccess_executed (hbus : m'.bus = m.bus) (hsame : m.core.Same m'.core)
    (hne : m.core.state ≠ .trap) (h : m.core.Pending m'.core) :
    Follows (fun e e' => e'.bus = e.bus ∧ e.core.Executed e'.core)
      (memoryAccess residue m) (memoryAccess residue m') := by
  have hvalue : ∀ v, Core.Same { m.core with aluOut := v } { m'.core with aluOut := v } :=
    fun _ => ⟨hsame.state, hsame.trapState, hsame.pc, hsame.registers, hsame.csr⟩
  unfold memoryAccess
  dsimp only
  cases hread : m.core.decoded.readMem with
  | true =>
      obtain ⟨hoffset, hwidth⟩ := h.access (Or.inl hread)
      rw [if_pos rfl, if_pos (h.readMem.trans hread), hbus, hoffset, hwidth]
      apply follows_bind (Transition.follows_self (Transition.returns_any _))
      intro a b hab
      obtain ⟨rfl, -⟩ := hab
      refine follows_ite Iff.rfl (follows_ok ⟨rfl, executed_trap (hvalue _) _⟩)
        (follows_ok ⟨rfl, hvalue _, fun htrap => absurd htrap hne, fun _ => ?_⟩)
      exact ⟨h.next, h.rd, h.writeRd, h.readMem, h.writeMem, h.access, fun _ => rfl⟩
  | false =>
      rw [h.readMem.trans hread, if_neg Bool.false_ne_true, if_neg Bool.false_ne_true]
      cases hwrite : m.core.decoded.writeMem with
      | true =>
          obtain ⟨hoffset, hwidth⟩ := h.access (Or.inr hwrite)
          rw [if_pos rfl, if_pos (h.writeMem.trans hwrite), hbus, hoffset, hwidth,
            h.value (Or.inr hwrite)]
          apply follows_bind (Transition.follows_self (Transition.returns_any _))
          intro a b hab
          obtain ⟨rfl, -⟩ := hab
          exact follows_ite Iff.rfl (follows_ok ⟨rfl, executed_trap hsame _⟩)
            (follows_ok ⟨rfl, hsame, fun htrap => absurd htrap hne, fun _ => h⟩)
      | false =>
          rw [h.writeMem.trans hwrite, if_neg Bool.false_ne_true, if_neg Bool.false_ne_true]
          exact follows_ok ⟨hbus, hsame, fun htrap => absurd htrap hne, fun _ => h⟩

end Memory

/-! ## From one stop to the next -/

/-- At a fetch, or in front of the handler. -/
def Core.Stopped (core : Core) : Prop :=
  core.state = .fetch ∨ core.state = .trap ∧ core.trapState = .handle

/-- The calls from `m` to the first state in which the core has stopped. -/
inductive StopsAt : (Nat → BitVec 8) → Machine → Machine → Prop
  | last {residues : Nat → BitVec 8} {m e : Machine} (call : coreCycle (residues 0) m = .ok e)
      (stop : e.core.Stopped) : StopsAt residues m e
  | more {residues : Nat → BitVec 8} {m m' e : Machine}
      (call : coreCycle (residues 0) m = .ok m') (going : ¬ m'.core.Stopped)
      (rest : StopsAt (fun i => residues (i + 1)) m' e) : StopsAt residues m e

/-- The program counter, the registers, RAM, `mcause` and `mepc` are the same. -/
structure Machine.SameEffect (m m' : Machine) : Prop where
  pc : m'.core.pc = m.core.pc
  registers : m'.core.registers = m.core.registers
  mmu : m'.bus.mmu = m.bus.mmu
  mcause : m'.core.csr mcause = m.core.csr mcause
  mepc : m'.core.csr mepc = m.core.csr mepc

/-- Wherever both stop, they stop with the same effect. -/
def Machine.SameEnds (m m' : Machine) : Prop :=
  ∀ residues e e', StopsAt residues m e → StopsAt residues m' e' → e.SameEffect e'

/-- At the execute stage. -/
structure Core.Poised (core core' : Core) : Prop where
  decoded : core.decoded.Same core'.decoded
  writeRd : core.decoded.writeRd = false
  writeMem : core.decoded.writeMem = false
  jal : core.decoded.optype = .j → core.decoded.opcode = 0b1101111
  free : core.decoded.optype = .b → core.decoded.op2 ∉ labelsB →
    (core.aluOut = 1 ↔ core'.aluOut = 1) ∨ (core.decoded.imm12 ++ 0#1).signExtend 32 = 4

/-- Two machines in the middle of one instruction. -/
structure Machine.Twins (m m' : Machine) : Prop where
  bus : m'.bus = m.bus
  same : m.core.Same m'.core
  stage : match m.core.state with
    | .fetch => False
    | .decode => m'.core.instruction = m.core.instruction ∧
        LatchFree m.core.instruction m.core.aluOut m'.core.aluOut
    | .execute => m.core.Poised m'.core
    | .memory | .writeback => m.core.Pending m'.core
    | .trap => m.core.trapState = .enter

/-- What two of them are after one more call. -/
structure Machine.Paired (e e' : Machine) : Prop where
  bus : e'.bus = e.bus
  same : e.core.Same e'.core
  twins : ¬ e.core.Stopped → e.Twins e'

theorem Core.going_of_ne {core : Core} (hfetch : core.state ≠ .fetch) (htrap : core.state ≠ .trap) :
    ¬ core.Stopped := by
  intro hstop
  rcases hstop with hstop | hstop
  · exact hfetch hstop
  · exact htrap hstop.1

section Step

variable {m m' : Machine} {residue : BitVec 8}

theorem Core.Same.advance {core core' : Core} (h : core.Same core') (next : CoreState) :
    (core.advance next).Same (core'.advance next) := by
  refine ⟨?_, h.trapState, h.pc, h.registers, h.csr⟩
  unfold Core.advance
  dsimp only
  rw [h.state]

/-- Behind the execute stage and behind the memory stage. -/
theorem paired_executed {e e' : Machine} (hbus : e'.bus = e.bus) (h : e.core.Executed e'.core)
    {next : CoreState} (hnext : next = .memory ∨ next = .writeback) :
    (e.advance next).Paired (e'.advance next) := by
  refine ⟨hbus, h.same.advance next, fun _ => ⟨hbus, h.same.advance next, ?_⟩⟩
  by_cases htrap : e.core.state = .trap
  · have hstate : (e.advance next).core.state = .trap := by
      show (if e.core.state ≠ .trap then next else e.core.state) = .trap
      rw [if_neg (fun hne => hne htrap), htrap]
    rw [hstate]
    exact h.trapped htrap
  · have hstate : (e.advance next).core.state = next := if_pos htrap
    have hpending := h.pending htrap
    rw [hstate]
    rcases hnext with rfl | rfl
    · exact ⟨hpending.next, hpending.rd, hpending.writeRd, hpending.readMem, hpending.writeMem,
        hpending.access, hpending.value⟩
    · exact ⟨hpending.next, hpending.rd, hpending.writeRd, hpending.readMem, hpending.writeMem,
        hpending.access, hpending.value⟩

theorem poised_decode {core core' : Core} (hdec : (decode core).decoded.Same (decode core').decoded)
    (hfree : LatchFree core.instruction core.aluOut core'.aluOut) :
    Core.Poised { core with decoded := (decode core).decoded }
      { core' with decoded := (decode core').decoded } := by
  obtain ⟨funct7, imm12, imm20, hfields⟩ := decode_decoded core
  refine ⟨hdec, ?_, ?_, ?_, ?_⟩
  · show (decode core).decoded.writeRd = false
    rw [hfields]
    rfl
  · show (decode core).decoded.writeMem = false
    rw [hfields]
    rfl
  · intro hformat
    have hop := opcode_of_j ((decode_optype core).symm.trans hformat)
    show (decode core).decoded.opcode = 0b1101111
    rw [hfields]
    show (decodeCommon core).opcode = 0b1101111
    rw [decodeCommon_opcode, hop]
    rfl
  · intro hformat hlabel
    have hop := opcode_of_b ((decode_optype core).symm.trans hformat)
    have hcode : (decodeCommon core).opcode = 0b1100011 := by
      rw [decodeCommon_opcode, hop]
      rfl
    have hnone : Isa.branchOp (Isa.funct3 core.instruction) = none := by
      by_contra hsome
      obtain ⟨cond, hcond⟩ := Option.ne_none_iff_exists'.mp hsome
      have hop2 : Decoded.op2 { decodeCommon core with imm12 := Isa.immBHalf core.instruction } =
          opBranch cond := op2_branch hcode (by rw [← hcond, ← decodeCommon_funct3])
      apply hlabel
      show (decode core).decoded.op2 ∈ labelsB
      rw [decode_b hop, hop2]
      exact opBranch_mem_labelsB cond
    show (core.aluOut = 1 ↔ core'.aluOut = 1) ∨
      ((decode core).decoded.imm12 ++ 0#1).signExtend 32 = 4
    rw [decode_b hop]
    exact hfree hop hnone

theorem coreCycle_decode_known (hstate : m.core.state = .decode)
    (hknown : decodeTypeTable ((Isa.opcode m.core.instruction).setWidth 8) ≠ .unknown) :
    coreCycle residue m = .ok (m.withCore { m.core with
      decoded := (decode m.core).decoded, state := .execute, cycle := m.core.cycle + 1 }) := by
  obtain ⟨dec, hdecode, -⟩ := decode_known hknown
  have hdec : (decode m.core).decoded = dec := by rw [hdecode]
  rw [hdec]
  exact coreCycle_decode hstate hdecode

theorem paired_decode (hstate : m.core.state = .decode) (h : m.Twins m') :
    Follows Machine.Paired (coreCycle residue m) (coreCycle residue m') := by
  have hstage := h.stage
  rw [hstate] at hstage
  obtain ⟨hword, hfree⟩ := hstage
  have hstate' := h.same.state.trans hstate
  have hdec := decode_same hword h.same.registers
  by_cases hknown : decodeTypeTable ((Isa.opcode m.core.instruction).setWidth 8) = .unknown
  · have hknown' : decodeTypeTable ((Isa.opcode m'.core.instruction).setWidth 8) = .unknown := by
      rw [hword]
      exact hknown
    have hsame : Core.Same { m.core with decoded := decodeCommon m.core }
        { m'.core with decoded := decodeCommon m'.core } :=
      ⟨h.same.state, h.same.trapState, h.same.pc, h.same.registers, h.same.csr⟩
    have hexecuted := executed_trap hsame .illegalInstruction
    unfold coreCycle
    rw [hstate, hstate', decode_unknown hknown, decode_unknown hknown']
    apply follows_ok
    have hsame' := hexecuted.same.advance .execute
    exact ⟨h.bus, hsame', fun _ => ⟨h.bus, hsame', rfl⟩⟩
  · have hknown' : decodeTypeTable ((Isa.opcode m'.core.instruction).setWidth 8) ≠ .unknown := by
      rw [hword]
      exact hknown
    rw [coreCycle_decode_known hstate hknown, coreCycle_decode_known hstate' hknown']
    apply follows_ok
    have hsame : Core.Same
        { m.core with
          decoded := (decode m.core).decoded, state := .execute, cycle := m.core.cycle + 1 }
        { m'.core with
          decoded := (decode m'.core).decoded, state := .execute, cycle := m'.core.cycle + 1 } :=
      ⟨rfl, h.same.trapState, h.same.pc, h.same.registers, h.same.csr⟩
    obtain ⟨hsame12, hrd, hmem, hjal, hbranch⟩ := poised_decode hdec hfree
    exact ⟨h.bus, hsame, fun _ => ⟨h.bus, hsame, hsame12, hrd, hmem, hjal, hbranch⟩⟩

theorem paired_execute (hstate : m.core.state = .execute) (h : m.Twins m') :
    Follows Machine.Paired (coreCycle residue m) (coreCycle residue m') := by
  have hstage := h.stage
  rw [hstate] at hstage
  have hstate' := h.same.state.trans hstate
  have hne : m.core.state ≠ .trap := by
    rw [hstate]
    nofun
  unfold coreCycle
  rw [hstate, hstate']
  apply follows_bind (execute_executed h.same hstage.decoded hne hstage.writeRd hstage.writeMem
    hstage.jal hstage.free)
  intro core core' hexecuted
  have hbus : (m'.withCore core').bus = (m.withCore core).bus := h.bus
  exact follows_ok (paired_executed hbus hexecuted (Or.inl rfl))

theorem paired_memory (hstate : m.core.state = .memory) (h : m.Twins m') :
    Follows Machine.Paired (coreCycle residue m) (coreCycle residue m') := by
  have hstage := h.stage
  rw [hstate] at hstage
  have hne : m.core.state ≠ .trap := by
    rw [hstate]
    nofun
  rw [coreCycle_memory_eq hstate, coreCycle_memory_eq (h.same.state.trans hstate)]
  apply follows_bind (memoryAccess_executed h.bus h.same hne hstage)
  intro e e' hboth
  exact follows_ok (paired_executed hboth.1 hboth.2 (Or.inr rfl))

theorem paired_writeback (hstate : m.core.state = .writeback) (h : m.Twins m') :
    Follows Machine.Paired (coreCycle residue m) (coreCycle residue m') := by
  have hstage := h.stage
  rw [hstate] at hstage
  rw [coreCycle_writeback hstate, coreCycle_writeback (h.same.state.trans hstate)]
  apply follows_ok
  have hpending : m.core.Pending m'.core := hstage
  refine ⟨h.bus, ⟨rfl, ?_, ?_, ?_, ?_⟩, fun hgoing => absurd (Or.inl rfl) hgoing⟩
  · rw [writeback_eq, writeback_eq]
    exact h.same.trapState
  · rw [writeback_eq, writeback_eq]
    exact hpending.next
  · rw [writeback_eq, writeback_eq]
    dsimp only [Machine.withCore]
    rw [hpending.writeRd, hpending.rd, h.same.registers]
    by_cases hwrite : m.core.decoded.writeRd = true
    · rw [if_pos hwrite, if_pos hwrite, hpending.value (Or.inl hwrite)]
    · rw [if_neg hwrite, if_neg hwrite]
  · rw [writeback_eq, writeback_eq]
    exact h.same.csr

theorem paired_trap (hstate : m.core.state = .trap) (h : m.Twins m') :
    Follows Machine.Paired (coreCycle residue m) (coreCycle residue m') := by
  have hstage := h.stage
  rw [hstate] at hstage
  have henter : m.core.trapState = .enter := hstage
  rw [coreCycle_enter hstate henter,
    coreCycle_enter (h.same.state.trans hstate) (h.same.trapState.trans henter)]
  apply follows_ok
  refine ⟨h.bus, ⟨h.same.state, rfl, h.same.pc, h.same.registers, ?_⟩, fun hgoing => ?_⟩
  · show m'.core.csr.set mepc (wide m'.core.pc) = m.core.csr.set mepc (wide m.core.pc)
    rw [h.same.csr, h.same.pc]
  · exact absurd (Or.inr ⟨hstate, rfl⟩) hgoing

theorem paired_step (h : m.Twins m') :
    Follows Machine.Paired (coreCycle residue m) (coreCycle residue m') := by
  cases hstate : m.core.state with
  | fetch =>
      have hstage := h.stage
      rw [hstate] at hstage
      exact hstage.elim
  | decode => exact paired_decode hstate h
  | execute => exact paired_execute hstate h
  | memory => exact paired_memory hstate h
  | writeback => exact paired_writeback hstate h
  | trap => exact paired_trap hstate h

end Step

/-! ## Runs -/

section Runs

variable {m m' m1 e e' : Machine} {residues : Nat → BitVec 8} {residue : BitVec 8}

theorem Machine.Paired.stopped_iff (h : e.Paired e') : e'.core.Stopped ↔ e.core.Stopped := by
  unfold Core.Stopped
  rw [h.same.state, h.same.trapState]

theorem Machine.Paired.sameEffect (h : e.Paired e') : e.SameEffect e' := by
  refine ⟨h.same.pc, h.same.registers, ?_, ?_, ?_⟩
  · rw [h.bus]
  · rw [h.same.csr]
  · rw [h.same.csr]

/-- Call by call, two such machines stop together. -/
theorem Machine.Twins.sameEnds (h : m.Twins m') : m.SameEnds m' := by
  intro residues e e' hstop hstop'
  induction hstop generalizing m' with
  | last call stop =>
      obtain ⟨e1, hcall, hpaired⟩ := paired_step h _ call
      cases hstop' with
      | last call' stop' =>
          rw [hcall] at call'
          cases call'
          exact hpaired.sameEffect
      | more call' going' rest' =>
          rw [hcall] at call'
          cases call'
          exact absurd (hpaired.stopped_iff.mpr stop) going'
  | more call going rest ih =>
      obtain ⟨m1, hcall, hpaired⟩ := paired_step h _ call
      cases hstop' with
      | last call' stop' =>
          rw [hcall] at call'
          cases call'
          exact absurd (hpaired.stopped_iff.mp stop') going
      | more call' going' rest' =>
          rw [hcall] at call'
          cases call'
          exact ih (hpaired.twins going) rest'

theorem fetch_sameButLatches (hcore : m.core.SameButLatches m'.core) (hbus : m'.bus = m.bus) :
    Follows (fun e e' => e'.bus = e.bus ∧ e.core.SameButLatches e'.core) (fetch m) (fetch m') := by
  obtain ⟨core', bus', calls'⟩ := m'
  obtain ⟨decoded, aluOut, trapRegs, trapPc, cycle, rfl⟩ := hcore
  have hbuses : bus' = m.bus := hbus
  subst hbuses
  unfold fetch
  refine follows_ite Iff.rfl ?_ ?_
  · apply follows_bind (Transition.follows_self (Transition.returns_any _))
    intro a b hab
    obtain ⟨rfl, -⟩ := hab
    refine follows_ite Iff.rfl (follows_error _ _) (follows_ok ⟨rfl, ?_⟩)
    exact ⟨decoded, aluOut, trapRegs, trapPc, cycle, rfl⟩
  · by_cases hbound : 7 - m.core.prefetchCnt.toNat < 7 ∧ m.core.prefetchCnt.toNat ≤ 7
    · rw [dif_pos hbound, dif_pos hbound]
      exact follows_ok ⟨rfl, decoded, aluOut, trapRegs, trapPc, cycle, rfl⟩
    · rw [dif_neg hbound]
      exact follows_error _ _

/-- A fetch of two such cores delivers the same, and leaves the latches alone. -/
theorem coreCycle_sameButLatches (hstate : m.core.state = .fetch)
    (hcore : m.core.SameButLatches m'.core) (hbus : m'.bus = m.bus)
    (hfetches : coreCycle residue m = .ok m1) :
    ∃ m1', coreCycle residue m' = .ok m1' ∧ m1'.bus = m1.bus ∧
      m1.core.SameButLatches m1'.core ∧ m1'.core.aluOut = m'.core.aluOut := by
  have hstate' : m'.core.state = .fetch := by
    obtain ⟨decoded, aluOut, trapRegs, trapPc, cycle, hcore⟩ := hcore
    rw [hcore]
    exact hstate
  rw [coreCycle_fetch_eq hstate] at hfetches
  obtain ⟨mf, hfetch, hfetches⟩ := Transition.exists_of_bind_ok hfetches
  cases hfetches
  obtain ⟨mf', hfetch', hbus', hcore'⟩ := fetch_sameButLatches hcore hbus mf hfetch
  have hcycle' : coreCycle residue m' = .ok (mf'.advance .decode) := by
    rw [coreCycle_fetch_eq hstate', hfetch']
    rfl
  have hfetched' := (coreCycle_fetched hstate' hcycle').core
  obtain ⟨decoded, aluOut, trapRegs, trapPc, cycle, hcore'⟩ := hcore'
  refine ⟨_, hcycle', hbus', ⟨decoded, aluOut, trapRegs, trapPc, cycle + 1, ?_⟩, ?_⟩
  · unfold Machine.advance Machine.withCore Core.advance
    rw [hcore']
  · rw [hfetched']

theorem twins_of_latchFree (hstate : m.core.state = .decode)
    (hcore : m.core.SameButLatches m'.core) (hbus : m'.bus = m.bus)
    (hfree : LatchFree m.core.instruction m.core.aluOut m'.core.aluOut) : m.Twins m' := by
  obtain ⟨decoded, aluOut, trapRegs, trapPc, cycle, hcore⟩ := hcore
  rw [hcore] at hfree
  refine ⟨hbus, ?_, ?_⟩
  · rw [hcore]
    exact ⟨rfl, rfl, rfl, rfl, rfl⟩
  · rw [hstate, hcore]
    exact ⟨rfl, hfree⟩

/-- The four stages after a fetch lead to the next stop. -/
theorem stopsAt_stages {dec : Decoded} {core : Core} (hstate : m.core.state = .decode)
    (hdecode : decode m.core = { m.core with decoded := dec })
    (hexecute : execute { m.core with
      decoded := dec, state := .execute, cycle := m.core.cycle + 1 } = .ok core)
    (hnext : core.state = .execute)
    (hmemory : memoryAccess (residues 2) (m.withCore { core with
      state := .memory, cycle := core.cycle + 1 }) = .ok m')
    (hnext' : m'.core.state = .memory) :
    StopsAt residues m (m'.withCore { writeback { m'.core with
      state := .writeback, cycle := m'.core.cycle + 1 } with
        state := .fetch, cycle := m'.core.cycle + 1 + 1 }) := by
  refine .more (coreCycle_decode hstate hdecode) (Core.going_of_ne nofun nofun) ?_
  refine .more (coreCycle_execute rfl hexecute hnext) (Core.going_of_ne nofun nofun) ?_
  refine .more (coreCycle_memory rfl hmemory hnext') (Core.going_of_ne nofun nofun) ?_
  exact .last (coreCycle_writeback rfl) (Or.inl rfl)

/-- A word under BRANCH without a label goes by what was left in `aluOut`. -/
theorem unlabelled_stops (hstate : m.core.state = .decode)
    (hop : Isa.opcode m.core.instruction = 0b1100011)
    (hnone : Isa.branchOp (Isa.funct3 m.core.instruction) = none)
    (residues : Nat → BitVec 8) :
    ∃ e, StopsAt residues m e ∧ e.core.pc =
      if m.core.aluOut = 1 then m.core.pc + (Isa.immB m.core.instruction).signExtend 32
      else m.core.pc + 4 := by
  have hcode : (decodeCommon m.core).opcode = 0b1100011 := by
    rw [decodeCommon_opcode, hop]
    rfl
  have hformat : (decodeCommon m.core).optype = .b := by
    rw [decodeCommon_optype, hop]
    rfl
  have hlatch : executeB (decodeCommon m.core).op2 (decodeCommon m.core).rs1v
      (decodeCommon m.core).rs2v m.core.aluOut = m.core.aluOut :=
    executeB_unlabelled _ _ _ (op2_not_mem_labelsB hcode (by rw [decodeCommon_funct3, hnone]))
  refine ⟨_, stopsAt_stages hstate (decode_b hop) (execute_b hformat) rfl
    (memoryAccess_none rfl rfl) rfl, ?_⟩
  rw [writeback_eq]
  show (if (executeB (decodeCommon m.core).op2 (decodeCommon m.core).rs1v
    (decodeCommon m.core).rs2v m.core.aluOut == 1) = true then _ else _) = _
  rw [hlatch]
  simp only [beq_iff_eq]
  rfl

/-- One call on the way to the end. -/
theorem stopsAt_call {residues : Nat → BitVec 8} {e : Machine}
    (hcalls : ∀ r, coreCycle r m = .ok m1) (hgoing : ¬ m1.core.Stopped) :
    StopsAt residues m e ↔ StopsAt (fun i => residues (i + 1)) m1 e := by
  constructor
  · intro hstops
    cases hstops with
    | last call stop =>
        rw [hcalls] at call
        cases call
        exact absurd stop hgoing
    | more call going rest =>
        rw [hcalls] at call
        cases call
        exact rest
  · exact fun hrest => .more (hcalls _) hgoing hrest

/-- A fetch takes no residue, and the core goes on behind it. -/
theorem stopsAt_fetched {residues : Nat → BitVec 8} {e : Machine}
    (hstate : m.core.state = .fetch) (hfetches : coreCycle residue m = .ok m1) :
    StopsAt residues m e ↔ StopsAt (fun i => residues (i + 1)) m1 e := by
  have hstate1 : m1.core.state = .decode := by rw [(coreCycle_fetched hstate hfetches).core]
  apply stopsAt_call
  · intro r
    rw [← hfetches, coreCycle_fetch_eq hstate, coreCycle_fetch_eq hstate]
  · exact Core.going_of_ne (by rw [hstate1]; nofun) (by rw [hstate1]; nofun)

/-- Two branches with the same offset that end at the same address. -/
theorem target_eq_iff {pc offset : Word} {p q : Prop} [Decidable p] [Decidable q] :
    (if q then pc + offset else pc + 4) = (if p then pc + offset else pc + 4) ↔
      (p ↔ q) ∨ offset = 4 := by
  by_cases hp : p
  · by_cases hq : q
    · rw [if_pos hp, if_pos hq]
      exact iff_of_true rfl (Or.inl (iff_of_true hp hq))
    · rw [if_pos hp, if_neg hq, BitVec.add_right_inj, eq_comm]
      exact ⟨Or.inr, fun h => h.resolve_left fun hpq => hq (hpq.mp hp)⟩
  · by_cases hq : q
    · rw [if_neg hp, if_pos hq, BitVec.add_right_inj]
      exact ⟨Or.inr, fun h => h.resolve_left fun hpq => hp (hpq.mpr hq)⟩
    · rw [if_neg hp, if_neg hq]
      exact iff_of_true rfl (Or.inl (iff_of_false hp hq))

/-- Where the fetch delivers a word, what the latches were does not show in the effect
of the instruction exactly when the word is free of them. -/
theorem latches_invisible_iff (hstate : m.core.state = .fetch)
    (hcore : m.core.SameButLatches m'.core) (hbus : m'.bus = m.bus)
    (hfetches : coreCycle residue m = .ok m1) :
    m.SameEnds m' ↔ LatchFree m1.core.instruction m.core.aluOut m'.core.aluOut := by
  have hfetched := (coreCycle_fetched hstate hfetches).core
  have hstate1 : m1.core.state = .decode := by rw [hfetched]
  have hlatch1 : m1.core.aluOut = m.core.aluOut := by rw [hfetched]
  have hstate' : m'.core.state = .fetch := by
    obtain ⟨decoded, aluOut, trapRegs, trapPc, cycle, hcore⟩ := hcore
    rw [hcore]
    exact hstate
  obtain ⟨m1', hfetches', hbus1, hcore1, hlatch1'⟩ :=
    coreCycle_sameButLatches hstate hcore hbus hfetches
  have hboth : m1'.core.state = .decode ∧ m1'.core.instruction = m1.core.instruction ∧
      m1'.core.pc = m1.core.pc := by
    obtain ⟨decoded, aluOut, trapRegs, trapPc, cycle, hcore1⟩ := hcore1
    rw [hcore1]
    exact ⟨hstate1, rfl, rfl⟩
  obtain ⟨hstate1', hword, hpc⟩ := hboth
  constructor
  · intro hends hop hnone
    obtain ⟨e, hstops, he⟩ := unlabelled_stops hstate1 hop hnone (fun i => 0)
    obtain ⟨e', hstops', he'⟩ := unlabelled_stops hstate1' (by rw [hword, hop])
      (by rw [hword, hnone]) (fun i => 0)
    have hsame := (hends (fun _ => 0) e e' ((stopsAt_fetched hstate hfetches).mpr hstops)
      ((stopsAt_fetched hstate' hfetches').mpr hstops')).pc
    rw [he, he', hword, hpc, hlatch1, hlatch1'] at hsame
    exact target_eq_iff.mp hsame
  · intro hfree residues e e' hstops hstops'
    have htwins : m1.Twins m1' := by
      refine twins_of_latchFree hstate1 hcore1 hbus1 ?_
      rw [hlatch1, hlatch1']
      exact hfree
    exact htwins.sameEnds _ e e' ((stopsAt_fetched hstate hfetches).mp hstops)
      ((stopsAt_fetched hstate' hfetches').mp hstops')

end Runs

/-- A core in front of a word, with something left in `aluOut`. -/
def latchMachine (w aluOut : Word) : Machine :=
  { bufferedMachine w (fun _ => 0) with
    core := { (bufferedMachine w fun _ => 0).core with aluOut := aluOut } }

theorem latchMachine_same (w aluOut aluOut' : Word) :
    (latchMachine w aluOut).core.SameButLatches (latchMachine w aluOut').core :=
  ⟨_, aluOut', _, _, _, rfl⟩

/-- `addi x0, x0, 0`. -/
theorem latchMachine_nop : (latchMachine 0x00000013 0).SameEnds (latchMachine 0x00000013 1) := by
  obtain ⟨m1, hfetches, hword⟩ : ∃ m1, coreCycle 0 (latchMachine 0x00000013 0) = .ok m1 ∧
      m1.core.instruction = 0x00000013 := ⟨_, rfl, rfl⟩
  refine (latches_invisible_iff rfl (latchMachine_same 0x00000013 0 1) rfl hfetches).mpr ?_
  rw [hword]
  exact fun hop => absurd hop (by decide)

/-- A word under BRANCH with funct3 010 and the offset 8. -/
theorem latchMachine_unlabelled :
    (latchMachine 0x00002463 0).core.SameButLatches (latchMachine 0x00002463 1).core ∧
      (latchMachine 0x00002463 1).bus = (latchMachine 0x00002463 0).bus ∧
      ¬ (latchMachine 0x00002463 0).SameEnds (latchMachine 0x00002463 1) := by
  refine ⟨latchMachine_same 0x00002463 0 1, rfl, ?_⟩
  obtain ⟨e, hstops, he⟩ : ∃ e, StopsAt (fun _ => 0) (latchMachine 0x00002463 0) e ∧
      e.core.pc = 0x10004 :=
    ⟨_, .more rfl (Core.going_of_ne nofun nofun) (.more rfl (Core.going_of_ne nofun nofun)
      (.more rfl (Core.going_of_ne nofun nofun) (.more rfl (Core.going_of_ne nofun nofun)
        (.last rfl (Or.inl rfl))))), rfl⟩
  obtain ⟨e', hstops', he'⟩ : ∃ e, StopsAt (fun _ => 0) (latchMachine 0x00002463 1) e ∧
      e.core.pc = 0x10008 :=
    ⟨_, .more rfl (Core.going_of_ne nofun nofun) (.more rfl (Core.going_of_ne nofun nofun)
      (.more rfl (Core.going_of_ne nofun nofun) (.more rfl (Core.going_of_ne nofun nofun)
        (.last rfl (Or.inl rfl))))), rfl⟩
  intro hends
  have hpc := (hends _ e e' hstops hstops').pc
  rw [he, he'] at hpc
  exact absurd hpc (by decide)

end CRiscV
