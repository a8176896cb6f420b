/-
Control and status registers: the core's half of csr.h and csr.c.  Every
register has 64 bits, and addresses run below `csr_mmode_max`.
-/
import CRiscV.Mmu.Access

namespace CRiscV

abbrev CsrAddress := BitVec 12

def mepc : CsrAddress := 0x341
def mcause : CsrAddress := 0x342

inductive TrapCause where
  | instructionAddrMisalign | instructionAccessFault | illegalInstruction | breakpoint
  | loadAddrMisaligned | loadAccessFault | storeAddrMisaligned | storeAccessFault
  | envCallUmode | envCallSmode | envCallMmode
  | instructionPageFault | loadPageFault | storePageFault
  deriving DecidableEq, Repr

/-- The value of the enumerator in `trap_cause_t`. -/
def TrapCause.code : TrapCause → Word
  | .instructionAddrMisalign => 0
  | .instructionAccessFault => 1
  | .illegalInstruction => 2
  | .breakpoint => 3
  | .loadAddrMisaligned => 4
  | .loadAccessFault => 5
  | .storeAddrMisaligned => 6
  | .storeAccessFault => 7
  | .envCallUmode => 8
  | .envCallSmode => 9
  | .envCallMmode => 11
  | .instructionPageFault => 12
  | .loadPageFault => 13
  | .storePageFault => 15

theorem TrapCause.code_inj {a b : TrapCause} (h : a.code = b.code) : a = b := by
  revert h
  cases a <;> cases b <;> decide

abbrev Csr := CsrAddress → BitVec 64

def Csr.set (csr : Csr) (addr : CsrAddress) (v : BitVec 64) : Csr :=
  fun a => if a = addr then v else csr a

@[simp] theorem Csr.set_self (csr : Csr) (addr : CsrAddress) (v : BitVec 64) :
    csr.set addr v addr = v := if_pos rfl

theorem Csr.set_of_ne (csr : Csr) {addr a : CsrAddress} (h : a ≠ addr) (v : BitVec 64) :
    csr.set addr v a = csr a := if_neg h

theorem Csr.set_eq_self {csr : Csr} {addr : CsrAddress} {v : BitVec 64} (h : csr addr = v) :
    csr.set addr v = csr := by
  funext a
  by_cases ha : a = addr
  · rw [ha, Csr.set_self, h]
  · rw [Csr.set_of_ne csr ha]

/- The 32-bit forms widen their operand to the 64 bits of the register: the
value, the mask, and for `csr_read_clear32` the complement that was taken in 32
bits. -/
def csrReadWrite32 (csr : Csr) (addr : CsrAddress) (val : Word) : Word × Csr :=
  ((csr addr).setWidth 32, csr.set addr (wide val))

def csrReadSet32 (csr : Csr) (addr : CsrAddress) (mask : Word) : Word × Csr :=
  ((csr addr).setWidth 32, csr.set addr (csr addr ||| wide mask))

def csrReadClear32 (csr : Csr) (addr : CsrAddress) (mask : Word) : Word × Csr :=
  ((csr addr).setWidth 32, csr.set addr (csr addr &&& wide (~~~mask)))

def csrReadWrite64 (csr : Csr) (addr : CsrAddress) (val : BitVec 64) : BitVec 64 × Csr :=
  (csr addr, csr.set addr val)

def csrReadSet64 (csr : Csr) (addr : CsrAddress) (mask : BitVec 64) : BitVec 64 × Csr :=
  (csr addr, csr.set addr (csr addr ||| mask))

def csrReadClear64 (csr : Csr) (addr : CsrAddress) (mask : BitVec 64) : BitVec 64 × Csr :=
  (csr addr, csr.set addr (csr addr &&& ~~~mask))

theorem csrReadClear32_of_ne (csr : Csr) {addr a : CsrAddress} (h : a ≠ addr) (mask : Word) :
    (csrReadClear32 csr addr mask).2 a = csr a := if_neg h

/-- A 32-bit clear with an empty mask reads a register that a 32-bit write has
set and changes nothing. -/
theorem csrReadClear32_wide {csr : Csr} {addr : CsrAddress} {v : Word}
    (h : csr addr = wide v) : csrReadClear32 csr addr 0 = (v, csr) := by
  have hmask : wide v &&& wide (~~~0) = wide v := by
    apply BitVec.eq_of_getLsbD_eq
    intro i hi
    simp only [wide, BitVec.getLsbD_and, BitVec.getLsbD_setWidth, BitVec.getLsbD_not]
    by_cases h32 : i < 32
    · simp [h32, hi]
    · simp [h32, BitVec.getLsbD_of_ge v i (by omega)]
  rw [csrReadClear32, h, setWidth_wide, hmask, Csr.set_eq_self h]

end CRiscV
