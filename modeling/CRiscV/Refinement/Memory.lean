/-
Loads and stores that RAM accepts, against the instruction set.
-/
import CRiscV.Refinement.Alu

namespace CRiscV

/-! ## Addresses and offsets -/

section Address

variable {bus : Bus} {a : Vaddr} {n : Nat}

theorem Bus.InRam.offset_add (h : bus.InRam a n) {i : Nat} (hi : i < n) :
    (bus.mmu.offset (a + BitVec.ofNat 32 i)).toNat = (bus.mmu.offset a).toNat + i := by
  have haddressed := h.addressed
  exact Mmu.offset_add h.held.1 (by omega)

theorem Bus.InRam.byteFrom_eq (h : bus.InRam a n) {i : Nat} (hi : i < n) :
    bus.mmu.byteFrom a i = bus.mmu.memory (a + BitVec.ofNat 32 i) := by
  unfold Mmu.byteFrom Mmu.memory
  rw [h.offset_add hi]

/-- The offsets of the range are those of the addresses that follow `a`. -/
theorem Bus.InRam.offset_eq_add_iff (h : bus.InRam a n) (x : Vaddr) {i : Nat} (hi : i < n) :
    (bus.mmu.offset x).toNat = (bus.mmu.offset a).toNat + i ↔ (x - a).toNat = i := by
  have hbase := h.held.1
  have haddressed := h.addressed
  have hx := x.isLt
  have hb := bus.mmu.base.isLt
  have hoffset : (bus.mmu.offset x).toNat = (2 ^ 32 - bus.mmu.base.toNat + x.toNat) % 2 ^ 32 := by
    rw [Mmu.offset, wide_toNat, BitVec.toNat_sub]
  rw [Mmu.offset_toNat hbase, hoffset, BitVec.toNat_sub]
  omega

theorem Mmu.written_memory (h : bus.InRam a n) {src : Nat → BitVec 8} {size : Size}
    (hsize : size.toNat = n) (x : Vaddr) :
    (bus.mmu.written src a size).memory x =
      if (x - a).toNat < n then src (x - a).toNat else bus.mmu.memory x := by
  show Span.copy (bus.mmu.offset a).toNat ((bus.mmu.offset a).toNat + size.toNat) src bus.mmu.data
    (bus.mmu.offset x).toNat = _
  rw [hsize]
  by_cases hlt : (x - a).toNat < n
  · have hoffset := (h.offset_eq_add_iff x hlt).mpr rfl
    rw [if_pos hlt, Span.copy_of_mem (by omega) (by omega), hoffset, Nat.add_sub_cancel_left]
  · rw [if_neg hlt, Span.copy_of_not_mem]
    · rfl
    · by_cases hlo : (bus.mmu.offset x).toNat < (bus.mmu.offset a).toNat
      · exact Or.inl hlo
      · right
        by_contra hhi
        have hsub := (h.offset_eq_add_iff x
          (show (bus.mmu.offset x).toNat - (bus.mmu.offset a).toNat < n by omega)).mp (by omega)
        omega

end Address

/-! ## Loads -/

def opLoad : Isa.LoadOp → Word
  | .lb => opLb
  | .lh => opLh
  | .lw => opLw
  | .lbu => opLbu
  | .lhu => opLhu

def loadWidth : Isa.LoadOp → Width
  | .lb | .lbu => .byte
  | .lh | .lhu => .halfword
  | .lw => .word

theorem loadWidth_size (op : Isa.LoadOp) : (loadWidth op).size = op.size := by
  cases op <;> rfl

/-- What the execute stage leaves in `aluOut`; the memory stage overwrites it. -/
def loadLatch (op : Isa.LoadOp) (rs2v : Word) : Word :=
  match op with
  | .lb | .lbu => rs2v &&& 0xff
  | .lhu => rs2v &&& 0xffff
  | .lh => ((rs2v &&& 0xffff) <<< 16).sshiftRight 16
  | .lw => rs2v &&& 0xffffffff

/-- What the memory stage puts there: no load extends a sign. -/
def loaded (op : Isa.LoadOp) (byte : Nat → BitVec 8) : Word :=
  if op = .lb then Isa.LoadOp.lbu.value byte
  else if op = .lh then Isa.LoadOp.lhu.value byte
  else op.value byte

theorem op3_load {dec : Decoded} {op : Isa.LoadOp} (hop : dec.opcode = 0b0000011)
    (h3 : dec.funct3 = op.funct3) (h7 : dec.funct7 = 0) : dec.op3 = opLoad op := by
  unfold Decoded.op3
  rw [hop, h3, h7]
  cases op <;> decide

theorem executeI_load (core : Core) {op : Isa.LoadOp} (hop : core.decoded.op3 = opLoad op) :
    executeI core =
      .ok (executeLoad core (loadWidth op) (loadLatch op core.decoded.rs2v)) := by
  unfold executeI
  simp only [hop]
  cases op <;> simp [opLoad, loadWidth, loadLatch, opOf, opJalr, opLb, opLbu, opLhu, opLh, opLw]

theorem ofBytes_load (op : Isa.LoadOp) (f : Nat → BitVec 8) :
    Bytes.ofBytes 32 op.size f = loaded op f := by
  cases op with
  | lb => exact Bytes.ofBytes_one f
  | lbu => exact Bytes.ofBytes_one f
  | lh => exact Bytes.ofBytes_two f
  | lhu => exact Bytes.ofBytes_two f
  | lw => exact Bytes.ofBytes_four f

theorem loaded_eq_value_iff (op : Isa.LoadOp) (f : Nat → BitVec 8) :
    loaded op f = op.value f ↔
      (op = .lb → (f 0).msb = false) ∧ (op = .lh → (f 1).msb = false) := by
  cases op with
  | lb => simpa [loaded, Isa.LoadOp.value] using
      BitField.setWidth_eq_signExtend_iff (f 0) (by decide : 8 < 32)
  | lh =>
      have hmsb : (f 1 ++ f 0).msb = (f 1).msb := by
        rw [BitVec.msb_eq_getLsbD_last, BitVec.msb_eq_getLsbD_last, BitVec.getLsbD_append]
        rfl
      have hiff := BitField.setWidth_eq_signExtend_iff (f 1 ++ f 0) (by decide : 16 < 32)
      rw [hmsb] at hiff
      simpa [loaded, Isa.LoadOp.value] using hiff
  | lw => simp [loaded]
  | lbu => simp [loaded]
  | lhu => simp [loaded]

/-- What the execute stage makes of a load. -/
def decodedLoad (core : Core) (op : Isa.LoadOp) : Decoded :=
  { decodedImm core with
    memOffset := (decodeCommon core).rs1v + (Isa.immI core.instruction).signExtend 32
    memAccessWidth := loadWidth op
    readMem := true }

theorem execute_load {core core' : Core} {op : Isa.LoadOp}
    (hop : Isa.opcode core.instruction = 0b0000011)
    (h3 : Isa.funct3 core.instruction = op.funct3)
    (hdec : core'.decoded =
      { decodeCommon core with imm12 := Isa.immI core.instruction }) :
    execute core' = .ok { core' with
      decoded := decodedLoad core op
      aluOut := loadLatch op (decodeCommon core).rs2v } := by
  have hformat : core'.decoded.optype = .i := by
    rw [hdec]
    simp only [decodeCommon_optype, hop]
    decide
  have hopcode : (decodedImm core).opcode = 0b0000011 := by
    unfold decodedImm
    rw [decodeCommon_opcode, hop]
    decide
  have hop3 : (decodedImm core).op3 = opLoad op :=
    op3_load hopcode ((decodeCommon_funct3 core).trans h3) rfl
  rw [execute_i hformat, hdec]
  refine (executeI_load { core' with decoded := decodedImm core } hop3).trans ?_
  rw [executeLoad, seImm12_eq]
  rfl

/-- A load from readable RAM does what the instruction set says exactly when it
has no sign to extend. -/
theorem loadInstruction_iff {residue : BitVec 8} {m m1 : Machine} {op : Isa.LoadOp}
    {rd rs1 : Isa.Reg} {offset : BitVec 12} {a : Vaddr} (hstart : m.Starts residue m1)
    (hword : Isa.decode m1.core.instruction = some (.load op rd rs1 offset))
    (ha : a = m.core.registers rs1 + offset.signExtend 32) (hlock : m.bus.mutex = false)
    (hram : m.bus.InRam a op.size) (hperm : ∀ i < op.size, (m.bus.mmu.permFrom a i).Readable) :
    (∀ rs : List (BitVec 8), rs.length = 4 → ∃ m', coreCycles (residue :: rs) m = .ok m' ∧
      m.Retires m' (Isa.exec m.hart (.load op rd rs1 offset)) ∧
      m.bus.mmu.SameMemory m'.bus.mmu) ↔
      (op = .lb → rd = 0 ∨ (m.hart.mem a).msb = false) ∧
        (op = .lh → rd = 0 ∨ (m.hart.mem (a + 1)).msb = false) := by
  obtain ⟨hop, h3, rfl, rfl, rfl⟩ := Isa.decode_eq_load hword
  have hfetched := hstart.fetched
  have hformat : decodeTypeTable ((Isa.opcode m1.core.instruction).setWidth 8) = .i := by
    rw [hop]
    decide
  have haddr : (decodedLoad m1.core op).memOffset = a := by
    rw [ha, ← hstart.registers_eq]
    exact congrArg (· + _) (decodeCommon_rs1v hstart.zero_kept)
  have hwidth : (decodedLoad m1.core op).memAccessWidth.size = op.size := loadWidth_size op
  have hsame : m1.bus.mmu.byteFrom a = m.bus.mmu.byteFrom a ∧
      m1.bus.mmu.permFrom a = m.bus.mmu.permFrom a := by
    obtain ⟨state, hmmu⟩ := hfetched.memory
    rw [hmmu]
    exact ⟨rfl, rfl⟩
  have hvalue : Bytes.ofBytes 32 op.size (m.bus.mmu.byteFrom a) =
      loaded op fun i => m.hart.mem (a + BitVec.ofNat 32 i) := by
    rw [← ofBytes_load]
    exact Bytes.ofBytes_congr fun i hi => hram.byteFrom_eq hi
  have hrd : (decodedLoad m1.core op).rd = Isa.rd m1.core.instruction := decodeCommon_rd m1.core
  have hrun : ∀ rs : List (BitVec 8), rs.length = 4 → ∃ m',
      (coreCycles (residue :: rs) m = .ok m' ∧
        m.Retires m' { m.hart.next with
          reg := Isa.setReg m.core.registers (Isa.rd m1.core.instruction)
            (loaded op fun i => m.hart.mem (a + BitVec.ofNat 32 i)) }) ∧
      m.bus.mmu.SameMemory m'.bus.mmu := by
    intro rs hlen
    have hdecoding : m1.core.state = .decode := by rw [hfetched.core]
    obtain ⟨m', hcycles, hcore, hafter⟩ := coreCycles_load hlen hdecoding (decode_i hformat)
      (fun core hdec => execute_load hop h3 hdec) rfl rfl rfl (hfetched.unlocked hlock)
      (by rw [haddr, hwidth]; exact hfetched.inRam hram)
      (by rw [haddr, hwidth, hsame.2]; exact hperm)
    rw [haddr, hwidth, hsame.1, hvalue, hrd] at hcore
    have hmemory := hfetched.memory.trans hafter.memory
    refine ⟨m', hstart.retires hcycles (by rw [hcore]) (by rw [hcore]) (by rw [hcore]) ?_, hmemory⟩
    unfold Machine.hart
    rw [hmemory.memory_eq, hcore, hfetched.core]
    simp only [regW_eq_setReg hstart.zero]
    rfl
  have hvalues := loaded_eq_value_iff op fun i => m.hart.mem (a + BitVec.ofNat 32 i)
  subst ha
  refine (Machine.retires_iff hrun).trans (Isa.next_setReg_inj.trans
    ((or_congr_right hvalues).trans ?_))
  cases op <;> simp

/-- `lw x7, 0(x5)`, with `x5` on the word behind the instruction. -/
def lwMachine : Machine :=
  programMachine [0x0002a383, 0xfffefdfc] fun r => if r = 5 then 0x10004 else 0

theorem lwMachine_refines :
    ∃ m', coreCycles [0, 0, 0, 0, 0] lwMachine = .ok m' ∧
      lwMachine.Retires m' (Isa.exec lwMachine.hart (.load .lw 7 5 0)) ∧
      lwMachine.bus.mmu.SameMemory m'.bus.mmu := by
  have hfetch : (coreCycle 0 lwMachine).map (fun m => Isa.decode m.core.instruction) =
      .ok (some (.load .lw 7 5 0)) := rfl
  obtain ⟨m1, hm1, hword⟩ := Transition.exists_of_map_ok hfetch
  have hstart := programMachine_starts (by decide) hm1
  have hram : lwMachine.bus.InRam 0x10004 4 :=
    programMachine_inRam (by decide) (by decide) (by decide)
  exact (loadInstruction_iff hstart hword (by decide) rfl hram (fun _ _ => by
    show (mpermRead ||| mpermWrite).Readable
    decide)).mpr ⟨by decide, by decide⟩ [0, 0, 0, 0] rfl

/-- `lb x7, 0(x5)`, with a negative byte behind the instruction. -/
def lbMachine : Machine :=
  programMachine [0x00028383, 0x000000ff] fun r => if r = 5 then 0x10004 else 0

theorem lbMachine_not_refined :
    ∃ m1, lbMachine.Starts 0 m1 ∧
      Isa.decode m1.core.instruction = some (.load .lb 7 5 0) ∧
      lbMachine.bus.InRam 0x10004 1 ∧ (lbMachine.bus.mmu.permFrom 0x10004 0).Readable ∧
      ¬ ∃ m', coreCycles [0, 0, 0, 0, 0] lbMachine = .ok m' ∧
        lbMachine.Retires m' (Isa.exec lbMachine.hart (.load .lb 7 5 0)) := by
  have hfetch : (coreCycle 0 lbMachine).map (fun m => Isa.decode m.core.instruction) =
      .ok (some (.load .lb 7 5 0)) := rfl
  have hrun : (coreCycles [0, 0, 0, 0, 0] lbMachine).map (fun m => m.core.registers 7) =
      .ok 0x000000ff := rfl
  obtain ⟨m1, hm1, hword⟩ := Transition.exists_of_map_ok hfetch
  refine ⟨m1, programMachine_starts (by decide) hm1, hword,
    programMachine_inRam (by decide) (by decide) (by decide), ?_, ?_⟩
  · show (mpermRead ||| mpermWrite).Readable
    decide
  · exact not_retires_of (fun h => h.reg 7) hrun (by decide)

/-! ## Stores -/

def opStore : Isa.StoreOp → Word
  | .sb => opSb
  | .sh => opSh
  | .sw => opSw

def storeWidth : Isa.StoreOp → Width
  | .sb => .byte
  | .sh => .halfword
  | .sw => .word

theorem storeWidth_size (op : Isa.StoreOp) : (storeWidth op).size = op.size := by
  cases op <;> rfl

/-- The first of the three places where the stored value is narrowed. -/
def storeLatch (op : Isa.StoreOp) (rs2v : Word) : Word :=
  match op with
  | .sb => rs2v &&& 0xff
  | .sh => rs2v &&& 0xffff
  | .sw => rs2v &&& 0xffffffff

theorem byteAt_storeLatch (op : Isa.StoreOp) (v : Word) {k : Nat} (hk : k < op.size) :
    Bytes.byteAt (storeLatch op v) k = Bytes.byteAt v k := by
  have hmasked : ∀ {mask : Word}, (∀ i < 8 * op.size, mask.getLsbD i = true) →
      Bytes.byteAt (v &&& mask) k = Bytes.byteAt v k := by
    intro mask hmask
    apply BitVec.eq_of_getLsbD_eq
    intro i hi
    rw [Bytes.getLsbD_byteAt, Bytes.getLsbD_byteAt, BitVec.getLsbD_and,
      hmask (8 * k + i) (by omega), Bool.and_true]
  cases op with
  | sb => exact hmasked (by decide)
  | sh => exact hmasked (by decide)
  | sw => exact hmasked (by decide)

theorem op2_store {dec : Decoded} {op : Isa.StoreOp} (hop : dec.opcode = 0b0100011)
    (h3 : dec.funct3 = op.funct3) : dec.op2 = opStore op := by
  unfold Decoded.op2
  rw [hop, h3]
  cases op <;> decide

theorem executeS_store (core : Core) {op : Isa.StoreOp} (hop : core.decoded.op2 = opStore op) :
    executeS core =
      .ok { core with
        decoded := { core.decoded with memAccessWidth := storeWidth op }
        aluOut := storeLatch op core.decoded.rs2v } := by
  unfold executeS
  simp only [hop]
  cases op <;> simp [opStore, storeWidth, storeLatch, opOf, opSb, opSh, opSw]

/-- What the execute stage makes of a store. -/
def decodedStore (core : Core) (op : Isa.StoreOp) : Decoded :=
  { decodeCommon core with
    imm12 := Isa.immS core.instruction
    memOffset := (decodeCommon core).rs1v + (Isa.immS core.instruction).signExtend 32
    memAccessWidth := storeWidth op
    writeMem := true }

theorem execute_s {core : Core} (hformat : core.decoded.optype = .s) :
    execute core = executeS { core with
      decoded := { core.decoded with
        writeMem := true
        memOffset := core.decoded.rs1v + core.decoded.seImm12 } } := by
  unfold execute
  simp only [hformat]

theorem execute_store {core core' : Core} {op : Isa.StoreOp}
    (hop : Isa.opcode core.instruction = 0b0100011)
    (h3 : Isa.funct3 core.instruction = op.funct3)
    (hdec : core'.decoded =
      { decodeCommon core with imm12 := Isa.immS core.instruction }) :
    execute core' = .ok { core' with
      decoded := decodedStore core op
      aluOut := storeLatch op (decodeCommon core).rs2v } := by
  have hformat : core'.decoded.optype = .s := by
    rw [hdec]
    simp only [decodeCommon_optype, hop]
    decide
  have hopcode : (decodedStore core op).opcode = 0b0100011 := by
    unfold decodedStore
    rw [decodeCommon_opcode, hop]
    decide
  have hopcode' : core'.decoded.opcode = 0b0100011 := by
    rw [hdec]
    exact hopcode
  have hfunct3 : core'.decoded.funct3 = op.funct3 := by
    rw [hdec]
    exact (decodeCommon_funct3 core).trans h3
  have hop2 : Decoded.op2 { core'.decoded with
      writeMem := true
      memOffset := core'.decoded.rs1v + core'.decoded.seImm12 } = opStore op :=
    op2_store hopcode' hfunct3
  refine (execute_s hformat).trans ((executeS_store { core' with
    decoded := { core'.decoded with
      writeMem := true
      memOffset := core'.decoded.rs1v + core'.decoded.seImm12 } } hop2).trans ?_)
  rw [hdec, seImm12_eq]
  rfl

theorem written_storeLatch (op : Isa.StoreOp) (v : Word) (mmu : Mmu) (a : Vaddr) :
    mmu.written (Bytes.byteAt (storeLatch op v)) a (storeWidth op).bytes =
      mmu.written (Bytes.byteAt v) a (storeWidth op).bytes := by
  apply Mmu.written_congr
  intro i hi
  rw [Width.bytes_toNat, storeWidth_size] at hi
  exact byteAt_storeLatch op v hi

theorem storeBytes_eq {bus : Bus} {op : Isa.StoreOp} {a : Vaddr} (hram : bus.InRam a op.size)
    (v : Word) :
    (bus.mmu.written (Bytes.byteAt v) a (storeWidth op).bytes).memory =
      Isa.storeBytes bus.mmu.memory a op.size v := by
  funext x
  exact Mmu.written_memory hram ((Width.bytes_toNat _).trans (storeWidth_size op)) x

/-- RAM stays where it was when a store has gone to it. -/
theorem Bus.InRam.written {bus bus' : Bus} {a : Vaddr} {n : Nat} (h : bus.InRam a n)
    (hwiring : bus'.wiring = bus.wiring) {src : Nat → BitVec 8} {v : Vaddr} {size : Size}
    (hmmu : bus'.mmu = bus.mmu.written src v size) : bus'.InRam a n := by
  obtain ⟨i, dev, hroute, hdev⟩ := h.routed
  obtain ⟨dev', hroute', hw⟩ := hroute.rewire hwiring
  refine ⟨⟨i, dev', hroute', hdev.rewire hw⟩, ?_, ?_, h.addressed⟩
  · rw [hmmu]
    exact h.held
  · rw [hmmu]
    exact h.sized

/-- What a store leaves can be read back. -/
theorem read_written {bus bus' : Bus} {a : Vaddr} {aw : Width} {v : Word} (residue : BitVec 8)
    (h : bus.InRam a aw.size) (hwiring : bus'.wiring = bus.wiring) (hlock : bus'.mutex = false)
    (hmmu : bus'.mmu = bus.mmu.written (Bytes.byteAt v) a aw.bytes)
    (hperm : ∀ i < aw.size, (bus.mmu.permFrom a i).Readable ∨
      bus.mmu.permFrom a i &&& mpermRaw = mpermRaw) :
    ∃ bus'', busReadSingle residue bus' (wide a) aw =
      .ok ((v.setWidth (8 * aw.size)).setWidth 32, bus'') := by
  have hbytes := aw.bytes_toNat
  have hbyte : ∀ i < aw.size, bus'.mmu.byteFrom a i = Bytes.byteAt v i := by
    intro i hi
    rw [hmmu]
    show Span.copy (bus.mmu.offset a).toNat ((bus.mmu.offset a).toNat + aw.bytes.toNat)
      (Bytes.byteAt v) bus.mmu.data ((bus.mmu.offset a).toNat + i) = _
    rw [Span.copy_of_mem (by omega) (by omega), Nat.add_sub_cancel_left]
  have hreadable : ∀ i < aw.size, (bus'.mmu.permFrom a i).Readable := by
    intro i hi
    have hend := bus.mmu.offsetEnd_toNat a aw.bytes_lt
    rw [hmmu]
    show (Span.update (bus.mmu.offset a).toNat (bus.mmu.offsetEnd a aw.bytes).toNat
      (fun _ p => permWritten p) bus.mmu.perm ((bus.mmu.offset a).toNat + i)).Readable
    rw [Span.update_of_mem (by omega) (by omega)]
    exact permWritten_readable (hperm i hi)
  obtain ⟨bus'', hread, -, -⟩ :=
    busReadSingle_accepted residue hlock (h.written hwiring hmmu) hreadable
  refine ⟨bus'', ?_⟩
  rw [hread, Bytes.ofBytes_congr hbyte, Bytes.ofBytes_byteAt]

/-- A store to writable RAM does what the instruction set says, to the last byte
of the memory, and can be read back where reading is or becomes allowed. -/
theorem storeInstruction_refines {residue : BitVec 8} {m m1 : Machine} {op : Isa.StoreOp}
    {rs1 rs2 : Isa.Reg} {offset : BitVec 12} {a : Vaddr} {rs : List (BitVec 8)}
    (hstart : m.Starts residue m1)
    (hword : Isa.decode m1.core.instruction = some (.store op rs1 rs2 offset))
    (ha : a = m.core.registers rs1 + offset.signExtend 32) (hlock : m.bus.mutex = false)
    (hram : m.bus.InRam a op.size) (hperm : ∀ i < op.size, (m.bus.mmu.permFrom a i).Writable)
    (hlen : rs.length = 4) :
    ∃ m', coreCycles (residue :: rs) m = .ok m' ∧
      m.Retires m' (Isa.exec m.hart (.store op rs1 rs2 offset)) ∧
      (∀ k, k < (m.bus.mmu.offset a).toNat ∨ (m.bus.mmu.offset a).toNat + op.size ≤ k →
        m'.bus.mmu.data k = m.bus.mmu.data k) ∧
      ((∀ i < op.size, (m.bus.mmu.permFrom a i).Readable ∨
          m.bus.mmu.permFrom a i &&& mpermRaw = mpermRaw) →
        ∀ residue', ∃ bus', busReadSingle residue' m'.bus (wide a) (storeWidth op) =
          .ok (((m.core.registers rs2).setWidth (8 * op.size)).setWidth 32, bus')) := by
  obtain ⟨hop, h3, rfl, rfl, rfl⟩ := Isa.decode_eq_store hword
  have hfetched := hstart.fetched
  have hregs := hstart.registers_eq
  have hzero := hstart.zero_kept
  have hdecoding : m1.core.state = .decode := by rw [hfetched.core]
  have haddr : (decodedStore m1.core op).memOffset = a := by
    rw [ha, ← hregs]
    exact congrArg (· + _) (decodeCommon_rs1v hzero)
  have hwidth : (decodedStore m1.core op).memAccessWidth = storeWidth op := rfl
  have hperm1 : m1.bus.mmu.permFrom a = m.bus.mmu.permFrom a := by
    obtain ⟨state, hmmu⟩ := hfetched.memory
    rw [hmmu]
    rfl
  have hram1 := hfetched.inRam hram
  obtain ⟨m', hcycles, hcore, hwiring, hmmu, hunlock⟩ :=
    coreCycles_store hlen hdecoding (decode_s hop) (fun core hdec => execute_store hop h3 hdec)
      rfl rfl rfl rfl (hfetched.unlocked hlock)
      (by rw [haddr, hwidth, storeWidth_size]; exact hram1)
      (by rw [haddr, hwidth, storeWidth_size, hperm1]; exact hperm)
  rw [haddr, hwidth, written_storeLatch, decodeCommon_rs2v hzero, hregs] at hmmu
  have hhart : m'.hart = Isa.exec m.hart (.store op (Isa.rs1 m1.core.instruction)
      (Isa.rs2 m1.core.instruction) (Isa.immS m1.core.instruction)) := by
    unfold Machine.hart
    rw [hmmu, storeBytes_eq hram1, hfetched.memory.memory_eq, hcore, hfetched.core, ha]
    rfl
  obtain ⟨hrun, hretires⟩ := hstart.retires hcycles (by rw [hcore]) (by rw [hcore])
    (by rw [hcore]) hhart
  obtain ⟨state, hmmu1⟩ := hfetched.memory
  refine ⟨m', hrun, hretires, ?_, ?_⟩
  · intro k hk
    have hbytes := (storeWidth op).bytes_toNat
    rw [storeWidth_size] at hbytes
    rw [hmmu, hmmu1]
    exact Span.copy_of_not_mem (by rw [hbytes]; exact hk)
  · intro hread residue'
    rw [← storeWidth_size] at hread ⊢
    rw [← hperm1] at hread
    exact read_written residue' (by rw [storeWidth_size]; exact hram1) hwiring hunlock hmmu hread

/-- `sh x6, 0(x5)`, to an odd address. -/
def shMachine : Machine :=
  programMachine [0x00629023] fun r => if r = 5 then 0x10021 else if r = 6 then 0x12345678 else 0

theorem shMachine_refines :
    ∃ m', coreCycles [0, 0, 0, 0, 0] shMachine = .ok m' ∧
      shMachine.Retires m' (Isa.exec shMachine.hart (.store .sh 5 6 0)) := by
  have hfetch : (coreCycle 0 shMachine).map (fun m => Isa.decode m.core.instruction) =
      .ok (some (.store .sh 5 6 0)) := rfl
  obtain ⟨m1, hm1, hword⟩ := Transition.exists_of_map_ok hfetch
  have hstart := programMachine_starts (by decide) hm1
  have hram : shMachine.bus.InRam 0x10021 2 :=
    programMachine_inRam (by decide) (by decide) (by decide)
  have hperm : ∀ i < 2, (shMachine.bus.mmu.permFrom 0x10021 i).Writable := by
    intro i _
    show (mpermRead ||| mpermWrite).Writable
    decide
  have hlen : [(0 : BitVec 8), 0, 0, 0].length = 4 := rfl
  obtain ⟨m', hrun, hretires, -⟩ :=
    storeInstruction_refines hstart hword (by decide) rfl hram hperm hlen
  exact ⟨m', hrun, hretires⟩

end CRiscV
