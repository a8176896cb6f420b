/-
The state of a core: cpu.h and config.h.

A bit-field is a bit vector of its declared width; an enumeration kept in one is
an inductive type.
-/
import CRiscV.Bus.Model
import CRiscV.Core.Csr

namespace CRiscV

/-- `optype_t`. -/
inductive Optype where
  | unknown | r | i | s | b | u | j | c
  deriving DecidableEq, Repr

/-- `decode_type_table`: every row that is not `Unknown`. -/
def decodeTypeTable (opcode : BitVec 8) : Optype :=
  if opcode = 0b0000011 then .i
  else if opcode = 0b0010011 then .i
  else if opcode = 0b0010111 then .u
  else if opcode = 0b0100011 then .s
  else if opcode = 0b0110011 then .r
  else if opcode = 0b0110111 then .u
  else if opcode = 0b1100011 then .b
  else if opcode = 0b1100111 then .i
  else if opcode = 0b1101111 then .j
  else if opcode = 0b1110011 then .c
  else .unknown

/-- The macro `_OP`. -/
def opOf (opcode funct3 funct7 : Word) : Word := opcode ||| (funct3 <<< 7) ||| (funct7 <<< 11)

def opLui : Word := opOf 0b0110111 0b000 0
def opAuipc : Word := opOf 0b0010111 0b000 0
def opJal : Word := opOf 0b1101111 0b000 0
def opJalr : Word := opOf 0b1100111 0b000 0

def opBeq : Word := opOf 0b1100011 0b000 0
def opBne : Word := opOf 0b1100011 0b001 0
def opBlt : Word := opOf 0b1100011 0b100 0
def opBge : Word := opOf 0b1100011 0b101 0
def opBltu : Word := opOf 0b1100011 0b110 0
def opBgeu : Word := opOf 0b1100011 0b111 0

def opLb : Word := opOf 0b0000011 0b000 0
def opLh : Word := opOf 0b0000011 0b001 0
def opLw : Word := opOf 0b0000011 0b010 0
def opLbu : Word := opOf 0b0000011 0b100 0
def opLhu : Word := opOf 0b0000011 0b101 0

def opSb : Word := opOf 0b0100011 0b000 0
def opSh : Word := opOf 0b0100011 0b001 0
def opSw : Word := opOf 0b0100011 0b010 0

def opAddi : Word := opOf 0b0010011 0b000 0
def opSlti : Word := opOf 0b0010011 0b010 0
def opSltiu : Word := opOf 0b0010011 0b011 0
def opXori : Word := opOf 0b0010011 0b100 0
def opOri : Word := opOf 0b0010011 0b110 0
def opAndi : Word := opOf 0b0010011 0b111 0

def opSlli : Word := opOf 0b0010011 0b001 0
def opSrli : Word := opOf 0b0010011 0b101 0
def opSrai : Word := opOf 0b0010011 0b101 1

def opAdd : Word := opOf 0b0110011 0b000 0
def opSub : Word := opOf 0b0110011 0b000 1
def opSll : Word := opOf 0b0110011 0b001 0
def opSlt : Word := opOf 0b0110011 0b010 0
def opSltu : Word := opOf 0b0110011 0b011 0
def opXor : Word := opOf 0b0110011 0b100 0
def opSrl : Word := opOf 0b0110011 0b101 0
def opSra : Word := opOf 0b0110011 0b101 1
def opOr : Word := opOf 0b0110011 0b110 0
def opAnd : Word := opOf 0b0110011 0b111 0

def opEcall : Word := opOf 0b1110011 0b000 0

/-- `instr_t`, less `imm5`, which nothing reads or writes. -/
structure Decoded where
  optype : Optype
  opcode : BitVec 8
  rs1 : BitVec 5
  rs2 : BitVec 5
  rd : BitVec 5
  funct7 : BitVec 7
  funct3 : BitVec 3
  shamt : BitVec 5
  imm12 : BitVec 12
  imm20 : BitVec 20
  rs1v : Word
  rs2v : Word
  memOffset : Word
  jumpTarget : Word
  memAccessWidth : Width
  isJump : Bool
  writeRd : Bool
  readMem : Bool
  writeMem : Bool

/-- `core_state_t`. -/
inductive CoreState where
  | fetch | decode | execute | memory | writeback | trap
  deriving DecidableEq, Repr

/-- `trap_state_t`. -/
inductive TrapState where
  | none | enter | handle | exit
  deriving DecidableEq, Repr

/-- `priv_mode_t`. -/
inductive PrivMode where
  | machine | supervisor | user | debug
  deriving DecidableEq, Repr

abbrev Regs := BitVec 5 → Word

/-- `core_t`.  The bus it points to stands beside it in `Machine`, and its
`trap_handler` is an argument of the thread loop. -/
structure Core where
  state : CoreState
  instruction : Word
  /-- `PREFETCH_SIZE - 1` words. -/
  prefetch : Fin 7 → Word
  decoded : Decoded
  pc : Word
  aluOut : Word
  registers : Regs
  cycle : BitVec 64
  csr : Csr
  trapPc : Word
  trapRegs : Regs
  prefetchCnt : BitVec 4
  id : BitVec 4
  privMode : PrivMode
  trapState : TrapState
  halted : Bool

/-- The all-zero core that `cpu_init` leaves in each slot. -/
def cpuInitCore : Core :=
  { state := .fetch
    instruction := 0
    prefetch := fun _ => 0
    decoded :=
      { optype := .unknown, opcode := 0, rs1 := 0, rs2 := 0, rd := 0, funct7 := 0, funct3 := 0,
        shamt := 0, imm12 := 0, imm20 := 0, rs1v := 0, rs2v := 0, memOffset := 0,
        jumpTarget := 0, memAccessWidth := .byte, isJump := false, writeRd := false,
        readMem := false, writeMem := false }
    pc := 0
    aluOut := 0
    registers := fun _ => 0
    cycle := 0
    csr := fun _ => 0
    trapPc := 0
    trapRegs := fun _ => 0
    prefetchCnt := 0
    id := 0
    privMode := .machine
    trapState := .none
    halted := false }

/-- `core_init` on a slot of `cpu->cores`. -/
def coreInit (core : Core) (coreNum : BitVec 4) (initialPc : Word) : Core :=
  { core with
    id := coreNum
    pc := initialPc
    cycle := 0
    state := .fetch
    privMode := .machine
    prefetchCnt := 0
    halted := false
    registers := fun _ => 0 }

/-- What the emulator asks of the host, in the order it asks. -/
inductive HostCall where
  | read (fd count : Word)
  | write (fd : Word) (bytes : List (BitVec 8))
  | fstat (fd : Word)
  | close (fd : Word)
  | openFile (path : List (BitVec 8)) (flags mode : Word)
  | lseek (fd offset whence : Word)

/-- A core, the bus it is connected to, and the host calls made so far. -/
structure Machine where
  core : Core
  bus : Bus
  calls : List HostCall

def causeTrap (core : Core) (cause : TrapCause) : Core :=
  { core with
    state := .trap
    trapState := .enter
    csr := (csrReadWrite32 core.csr mcause cause.code).2 }

theorem causeTrap_mcause (core : Core) (cause : TrapCause) :
    (causeTrap core cause).csr mcause = wide cause.code :=
  Csr.set_self core.csr mcause (wide cause.code)

/-- The macro `REG_R`. -/
def regR (regs : Regs) (x : BitVec 5) : Word := if x = 0 then 0 else regs x

/-- The macro `REG_W`. -/
def regW (regs : Regs) (x : BitVec 5) (y : Word) : Regs :=
  fun r => if r = x then (if x = 0 then 0 else y) else regs r

theorem regR_eq {regs : Regs} (h : regs 0 = 0) (x : BitVec 5) : regR regs x = regs x := by
  by_cases hx : x = 0
  · rw [regR, if_pos hx, hx, h]
  · rw [regR, if_neg hx]

end CRiscV
