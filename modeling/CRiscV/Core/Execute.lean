/-
The execute stage of cpu.c.

The fields of `instr_t` that are narrower than an `int` promote to it, so their
shifts are shifts of a signed 32-bit value.  A shift of an operand that was cast
to `uint32_t` is logical.
-/
import CRiscV.Core.State

namespace CRiscV

/-- `dec->opcode | (dec->funct3 << 7)`. -/
def Decoded.op2 (dec : Decoded) : Word :=
  dec.opcode.setWidth 32 ||| (dec.funct3.setWidth 32 <<< 7)

/-- `dec->opcode | (dec->funct3 << 7) | ((dec->funct7 >> 5) << 11)`. -/
def Decoded.op3 (dec : Decoded) : Word :=
  dec.opcode.setWidth 32 ||| (dec.funct3.setWidth 32 <<< 7) |||
    ((dec.funct7.setWidth 32 >>> 5) <<< 11)

/-- `(dec->imm12 << 20) >> 20`. -/
def Decoded.seImm12 (dec : Decoded) : Word := (dec.imm12.setWidth 32 <<< 20).sshiftRight 20

/-- `(dec->imm20 ^ m) - m` with `m = 1 << 19`. -/
def Decoded.seImm20 (dec : Decoded) : Word :=
  let m := (1 : Word) <<< (20 - 1)
  (dec.imm20.setWidth 32 ^^^ m) - m

/-- The value of a comparison. -/
def cBool (b : Bool) : Word := if b then 1 else 0

/-- `add_wrap`. -/
def addWrap (x y : Word) : Word := x + y

/-- The switch of the R format: `aluOut`, or `none` at the default label. -/
def executeR (op rs1v rs2v : Word) : Option Word :=
  if op = opAdd then some (rs1v + rs2v)
  else if op = opSub then some (rs1v - rs2v)
  else if op = opSll then some (rs1v <<< (rs2v &&& 31))
  else if op = opSlt then some (cBool (rs1v.slt rs2v))
  else if op = opSltu then some (cBool (rs1v.ult rs2v))
  else if op = opXor then some (rs1v ^^^ rs2v)
  else if op = opSrl then some (rs1v >>> (rs2v &&& 31))
  else if op = opSra then some (rs1v >>> (rs2v &&& 31))
  else if op = opOr then some (rs1v ||| rs2v)
  else if op = opAnd then some (rs1v &&& rs2v)
  else none

/-- The load labels of the I format. -/
def executeLoad (core : Core) (width : Width) (aluOut : Word) : Core :=
  let dec := core.decoded
  { core with
    decoded := { dec with
      memOffset := dec.rs1v + dec.seImm12
      memAccessWidth := width
      readMem := true }
    aluOut := aluOut }

/-- The switch of the I format. -/
def executeI (core : Core) : Except Abort Core :=
  let dec := core.decoded
  let op := dec.op3
  let seImm12 := dec.seImm12
  if op = opJalr then
    .ok { core with
      decoded := { dec with isJump := true, jumpTarget := dec.rs1v + seImm12 }
      aluOut := core.pc + 4 }
  else if op = opLb ∨ op = opLbu then .ok (executeLoad core .byte (dec.rs2v &&& 0xff))
  else if op = opLhu then .ok (executeLoad core .halfword (dec.rs2v &&& 0xffff))
  else if op = opLh then
    .ok (executeLoad core .halfword (((dec.rs2v &&& 0xffff) <<< 16).sshiftRight 16))
  else if op = opLw then .ok (executeLoad core .word (dec.rs2v &&& 0xffffffff))
  else if op = opAddi then .ok { core with aluOut := addWrap dec.rs1v seImm12 }
  else if op = opSlti then .ok { core with aluOut := cBool (dec.rs1v.slt seImm12) }
  else if op = opSltiu then .ok { core with aluOut := cBool (dec.rs1v.ult seImm12) }
  else if op = opXori then .ok { core with aluOut := dec.rs1v ^^^ seImm12 }
  else if op = opOri then .ok { core with aluOut := dec.rs1v ||| (seImm12 &&& 0xfff) }
  else if op = opAndi then .ok { core with aluOut := dec.rs1v &&& seImm12 }
  else if op = opSlli then .ok { core with aluOut := dec.rs1v <<< dec.shamt }
  else if op = opSrli then .ok { core with aluOut := dec.rs1v >>> dec.shamt }
  else if op = opSrai then .ok { core with aluOut := dec.rs1v.sshiftRight dec.shamt.toNat }
  else .error .assertion

/-- The switch of the S format. -/
def executeS (core : Core) : Except Abort Core :=
  let dec := core.decoded
  let op := dec.op2
  if op = opSb then
    .ok { core with decoded := { dec with memAccessWidth := .byte }, aluOut := dec.rs2v &&& 0xff }
  else if op = opSh then
    .ok { core with
      decoded := { dec with memAccessWidth := .halfword }
      aluOut := dec.rs2v &&& 0xffff }
  else if op = opSw then
    .ok { core with
      decoded := { dec with memAccessWidth := .word }
      aluOut := dec.rs2v &&& 0xffffffff }
  else .error .assertion

/-- The switch of the B format, which has no default label: another `op` leaves
`aluOut` as it was. -/
def executeB (op rs1v rs2v aluOut : Word) : Word :=
  if op = opBeq then cBool (rs1v == rs2v)
  else if op = opBne then cBool (rs1v != rs2v)
  else if op = opBlt then cBool (rs1v.slt rs2v)
  else if op = opBltu then cBool (rs1v.ult rs2v)
  else if op = opBge then cBool (!rs1v.slt rs2v)
  else if op = opBgeu then cBool (!rs1v.ult rs2v)
  else aluOut

def execute (core : Core) : Except Abort Core :=
  let dec := core.decoded
  match dec.optype with
  | .r =>
      let core := { core with decoded := { dec with writeRd := true } }
      match executeR dec.op3 dec.rs1v dec.rs2v with
      | some aluOut => .ok { core with aluOut := aluOut }
      | none => .ok (causeTrap core .illegalInstruction)
  | .i => executeI { core with decoded := { dec with writeRd := true } }
  | .s =>
      executeS { core with
        decoded := { dec with writeMem := true, memOffset := dec.rs1v + dec.seImm12 } }
  | .b =>
      let seImm12 := (dec.imm12.setWidth 32 <<< 20).sshiftRight 19
      let aluOut := executeB dec.op2 dec.rs1v dec.rs2v core.aluOut
      .ok { core with
        decoded := { dec with jumpTarget := core.pc + seImm12, isJump := aluOut == 1 }
        aluOut := aluOut }
  | .u =>
      let core := { core with decoded := { dec with writeRd := true } }
      if dec.opcode.setWidth 32 = opLui &&& 0x7f then
        .ok { core with aluOut := dec.imm20.setWidth 32 <<< 12 }
      else if dec.opcode.setWidth 32 = opAuipc &&& 0x7f then
        .ok { core with aluOut := (dec.seImm20 <<< 12) + core.pc }
      else .error .assertion
  | .j =>
      let dec := { dec with isJump := true, writeRd := true }
      if dec.opcode.setWidth 32 = opJal &&& 0x7f then
        .ok { core with
          decoded := { dec with jumpTarget := (dec.seImm20 <<< 1) + core.pc }
          aluOut := core.pc + 4 }
      -- `assert(false == dec->opcode)`
      else if dec.opcode = 0 then .ok { core with decoded := dec }
      else .error .assertion
  | .c =>
      if dec.opcode.setWidth 32 = opEcall then .ok (causeTrap core .envCallUmode)
      else .ok (causeTrap core .illegalInstruction)
  | .unknown => .ok (causeTrap core .illegalInstruction)

end CRiscV
