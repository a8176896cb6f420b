/-
The decode stage of cpu.c.
-/
import CRiscV.Core.State

namespace CRiscV

/-- The part of `decode` in front of its switch. -/
def decodeCommon (core : Core) : Decoded :=
  let i := core.instruction
  let dec := core.decoded
  { dec with
    isJump := false
    writeRd := false
    writeMem := false
    readMem := false
    opcode := (i &&& 0x7f).setWidth 8
    optype := decodeTypeTable ((i &&& 0x7f).setWidth 8)
    rs1 := ((i >>> 15) &&& 31).setWidth 5
    rs1v := regR core.registers (((i >>> 15) &&& 31).setWidth 5)
    rs2 := ((i >>> 20) &&& 31).setWidth 5
    rs2v := regR core.registers (((i >>> 20) &&& 31).setWidth 5)
    funct3 := ((i >>> 12) &&& 7).setWidth 3
    shamt := ((i >>> 20) &&& 31).setWidth 5
    rd := ((i >>> 7) &&& 31).setWidth 5
    funct7 := 0 }

/-- The 13-bit branch offset, put together at its own weight. -/
def decodeBimm (i : Word) : Word :=
  let imm12 := (i >>> 31) &&& 1
  let imm105 := (i >>> 25) &&& 0b111111
  let imm41 := (i >>> 8) &&& 0xf
  let imm11 := (i >>> 7) &&& 1
  (imm12 <<< 12) ||| (imm105 <<< 5) ||| (imm41 <<< 1) ||| (imm11 <<< 11)

/-- The 21-bit jump offset, put together at its own weight. -/
def decodeJimm (i : Word) : Word :=
  let imm20 := (i >>> 31) &&& 0b1
  let imm101 := (i >>> 21) &&& 0b1111111111
  let imm11 := (i >>> 20) &&& 0b1
  let imm1912 := (i >>> 12) &&& 0b11111111
  (imm20 <<< 20) ||| (imm101 <<< 1) ||| (imm11 <<< 11) ||| (imm1912 <<< 12)

def decode (core : Core) : Core :=
  let i := core.instruction
  let dec := decodeCommon core
  match dec.optype with
  | .c => { core with decoded := dec }
  | .r => { core with decoded := { dec with funct7 := (i >>> 25).setWidth 7 } }
  | .i =>
      { core with
        decoded := { dec with imm12 := ((i >>> 20) &&& (((1 : Word) <<< 12) - 1)).setWidth 12 } }
  | .s =>
      { core with
        decoded := { dec with
          imm12 :=
            (((i >>> 7) &&& (0b11111 : Word)) ||| ((i >>> 20) &&& (0xffffe0 : Word))).setWidth 12 } }
  | .b => { core with decoded := { dec with imm12 := (decodeBimm i >>> 1).setWidth 12 } }
  | .u => { core with decoded := { dec with imm20 := ((i >>> 12) &&& 0xfffff).setWidth 20 } }
  | .j =>
      { core with
        decoded := { dec with imm20 := ((decodeJimm i <<< 11).sshiftRight 12).setWidth 20 } }
  | .unknown => causeTrap { core with decoded := dec } .illegalInstruction

end CRiscV
