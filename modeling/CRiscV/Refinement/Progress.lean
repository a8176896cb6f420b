/-
Which turns the thread loop makes.  A turn that does not return has failed an assertion,
called a handler that is not there, run over a buffer or waits for a bus that nobody will
release; behind every run, these are exactly the turns that the conditions here leave out.
-/
import CRiscV.Core.Control
import CRiscV.Emulator.Effects
import CRiscV.Refinement.Crash
import CRiscV.Refinement.Illegal
import CRiscV.Refinement.Jump
import CRiscV.Refinement.Memory
import CRiscV.Refinement.Program
import CRiscV.Refinement.Refill

namespace CRiscV

open Transition (Run Yields yields_ok yields_ite yields_bind not_yields_error
  yields_cases yields_ite_ok_iff yields_ite_error_iff)

/-! ## The stages -/

/-- The execute stage checks its labels under three opcodes. -/
def Labelled (w : Word) : Prop :=
  Isa.opcode w = 0b0000011 ∨ Isa.opcode w = 0b0100011 ∨ Isa.opcode w = 0b1100111 →
    Isa.decode w ≠ none

/-- The latches that select an operation are those of the instruction. -/
structure Core.Issued (core : Core) : Prop where
  optype : core.decoded.optype = decodeTypeTable ((Isa.opcode core.instruction).setWidth 8)
  opcode : core.decoded.opcode = (Isa.opcode core.instruction).setWidth 8
  funct3 : core.decoded.funct3 = Isa.funct3 core.instruction
  funct7 : core.decoded.optype = .i → core.decoded.funct7 = 0

section Stages

variable {core : Core} {m m' : Machine} {residue : BitVec 8} {w : Word}

theorem executeI_yields_iff : Yields (executeI core) ↔ core.decoded.op3 ∈ labelsI := by
  have hnone : ¬ Yields (.error .assertion : Except Abort Core) := not_yields_error _
  unfold executeI
  simp only [yields_ite_ok_iff, hnone, labelsI, List.mem_cons, List.not_mem_nil, or_assoc]

theorem executeS_yields_iff :
    Yields (executeS core) ↔ core.decoded.op2 ∈ [opSb, opSh, opSw] := by
  have hnone : ¬ Yields (.error .assertion : Except Abort Core) := not_yields_error _
  unfold executeS
  simp only [yields_ite_ok_iff, hnone, List.mem_cons, List.not_mem_nil]

/-- The opcodes of each format. -/
theorem opcode_of_i {op : BitVec 7} (h : decodeTypeTable (op.setWidth 8) = .i) :
    op = 0b0000011 ∨ op = 0b0010011 ∨ op = 0b1100111 := by
  revert op
  decide

theorem opcode_of_s {op : BitVec 7} : decodeTypeTable (op.setWidth 8) = .s ↔ op = 0b0100011 := by
  revert op
  decide

theorem opcode_of_u {op : BitVec 7} (h : decodeTypeTable (op.setWidth 8) = .u) :
    op = 0b0110111 ∨ op = 0b0010111 := by
  revert op
  decide

theorem label_of_load (f3 : BitVec 3) :
    (0b0000011 : BitVec 8).setWidth 32 ||| (f3.setWidth 32 <<< 7) ∈ labelsI ↔
      Isa.loadOp f3 ≠ none := by
  revert f3
  decide

theorem label_of_imm (f3 : BitVec 3) :
    (0b0010011 : BitVec 8).setWidth 32 ||| (f3.setWidth 32 <<< 7) ∈ labelsI := by
  revert f3
  decide

theorem label_of_jalr (f3 : BitVec 3) :
    (0b1100111 : BitVec 8).setWidth 32 ||| (f3.setWidth 32 <<< 7) ∈ labelsI ↔ f3 = 0 := by
  revert f3
  decide

theorem label_of_store (f3 : BitVec 3) :
    (0b0100011 : BitVec 8).setWidth 32 ||| (f3.setWidth 32 <<< 7) ∈ [opSb, opSh, opSw] ↔
      Isa.storeOp f3 ≠ none := by
  revert f3
  decide

theorem Core.Issued.label_i (h : core.Issued) (hformat : core.decoded.optype = .i) :
    core.decoded.op3 ∈ labelsI ↔ Labelled core.instruction := by
  unfold Labelled
  rw [op3_zero (h.funct7 hformat), Decoded.op2, h.opcode, h.funct3]
  rcases opcode_of_i (h.optype.symm.trans hformat) with hload | himm | hjalr
  · rw [Isa.decode_load hload, hload, ne_eq, Option.map_eq_none_iff]
    exact (label_of_load _).trans (imp_iff_right (Or.inl rfl)).symm
  · rw [himm]
    exact iff_of_true (label_of_imm _) fun hchecked => absurd hchecked (by decide)
  · rw [Isa.decode_jalr hjalr, hjalr, imp_iff_right (Or.inr (Or.inr rfl))]
    by_cases hzero : Isa.funct3 core.instruction = 0
    · rw [if_pos hzero]
      exact iff_of_true ((label_of_jalr _).mpr hzero) (Option.some_ne_none _)
    · rw [if_neg hzero]
      exact iff_of_false (mt (label_of_jalr _).mp hzero) fun hne => hne rfl

theorem Core.Issued.label_s (h : core.Issued) (hformat : core.decoded.optype = .s) :
    core.decoded.op2 ∈ [opSb, opSh, opSw] ↔ Labelled core.instruction := by
  have hstore := opcode_of_s.mp (h.optype.symm.trans hformat)
  unfold Labelled
  rw [Decoded.op2, h.opcode, h.funct3, Isa.decode_store hstore, hstore, ne_eq,
    Option.map_eq_none_iff]
  exact (label_of_store _).trans (imp_iff_right (Or.inr (Or.inl rfl))).symm

/-- Another format is no one's of the three opcodes. -/
theorem labelled_of_format (hi : decodeTypeTable ((Isa.opcode w).setWidth 8) ≠ .i)
    (hs : decodeTypeTable ((Isa.opcode w).setWidth 8) ≠ .s) : Labelled w := by
  intro hchecked
  exfalso
  revert hi hs hchecked
  generalize Isa.opcode w = op
  revert op
  decide

theorem Core.Issued.yields_iff (h : core.Issued) :
    Yields (execute core) ↔ Labelled core.instruction := by
  have hother : core.decoded.optype ≠ .i → core.decoded.optype ≠ .s →
      Yields (execute core) → (Yields (execute core) ↔ Labelled core.instruction) := by
    intro hi hs hyields
    rw [h.optype] at hi hs
    exact iff_of_true hyields (labelled_of_format hi hs)
  cases hformat : core.decoded.optype with
  | i =>
      rw [execute_i hformat, executeI_yields_iff]
      exact h.label_i hformat
  | s =>
      have hlabel := h.label_s hformat
      rw [execute_s hformat, executeS_yields_iff]
      unfold Decoded.op2 at hlabel ⊢
      exact hlabel
  | r =>
      refine hother (by rw [hformat]; nofun) (by rw [hformat]; nofun) ?_
      cases hvalue : executeR core.decoded.op3 core.decoded.rs1v core.decoded.rs2v with
      | none => exact ⟨_, execute_r_none hformat hvalue⟩
      | some v => exact ⟨_, execute_r hformat hvalue⟩
  | b =>
      refine hother (by rw [hformat]; nofun) (by rw [hformat]; nofun) ?_
      unfold execute
      simp only [hformat]
      exact yields_ok _
  | u =>
      refine hother (by rw [hformat]; nofun) (by rw [hformat]; nofun) ?_
      obtain ⟨core', hexecute, -⟩ := continues_u hformat (by
        rw [h.opcode]
        rcases opcode_of_u (h.optype.symm.trans hformat) with hop | hop
        · exact Or.inl (by rw [hop]; rfl)
        · exact Or.inr (by rw [hop]; rfl))
      exact ⟨core', hexecute⟩
  | j =>
      refine hother (by rw [hformat]; nofun) (by rw [hformat]; nofun) ?_
      obtain ⟨core', hexecute, -⟩ := continues_j hformat (by
        rw [h.opcode, opcode_of_j (h.optype.symm.trans hformat)]
        rfl)
      exact ⟨core', hexecute⟩
  | c =>
      refine hother (by rw [hformat]; nofun) (by rw [hformat]; nofun) ?_
      unfold execute
      simp only [hformat]
      exact yields_ite (yields_ok _) (yields_ok _)
  | unknown =>
      refine hother (by rw [hformat]; nofun) (by rw [hformat]; nofun) ?_
      unfold execute
      simp only [hformat]
      exact yields_ok _

theorem coreCycle_issued (hstate : m.core.state = .decode) (h : coreCycle residue m = .ok m')
    (hgoes : m'.core.state = .execute) : m'.core.Issued := by
  by_cases hknown : decodeTypeTable ((Isa.opcode m.core.instruction).setWidth 8) = .unknown
  · have hcycle : coreCycle residue m = .ok ((m.withCore (decode m.core)).advance .execute) := by
      unfold coreCycle
      rw [hstate]
    rw [hcycle, decode_unknown hknown] at h
    cases h
    cases hgoes
  · obtain ⟨dec, hdecode, hformat, hopcode, h3, h7⟩ := decode_known hknown
    rw [coreCycle_decode hstate hdecode] at h
    cases h
    refine ⟨hformat, hopcode, h3, fun hi => h7.trans (if_neg ?_)⟩
    rw [show dec.optype = .i from hi]
    nofun

theorem fetch_yields_iff (hmain : m.bus.IsMain) (hsized : m.bus.mmu.size.toNat < 2 ^ 63)
    (hbound : m.core.prefetchCnt.toNat ≤ 7) :
    Yields (fetch m) ↔
      (m.core.prefetchCnt = 0 → m.bus.mutex = false ∧ m.bus.Reads m.core.pc 32) := by
  by_cases hcnt : m.core.prefetchCnt = 0
  · rw [imp_iff_right hcnt]
    constructor
    · rintro ⟨m', hfetch⟩
      have hword : m.bus.Reads m.core.pc 4 := by
        by_contra hbad
        rw [fetch_unreadable hmain hcnt hbad] at hfetch
        cases hfetch
      obtain ⟨ram, csr, mutex, status, mmu, hbus⟩ := hmain
      obtain ⟨hfree, -, haccepts, -⟩ := fetch_refilled hbus hcnt hfetch
      refine ⟨?_, .of_accepts hword.routed ?_⟩
      · rw [hbus]
        exact hfree
      · rw [hbus]
        exact haccepts
    · rintro ⟨hfree, hreads⟩
      obtain ⟨i, dev, hroute, hram⟩ := hreads.routed
      obtain ⟨m', hfetch, -⟩ := fetch_block_accepted hcnt hfree hroute hram
        ((refill_accepts_iff hsized).mpr ⟨hreads.held, hreads.readable⟩)
      exact ⟨m', hfetch⟩
  · refine iff_of_true ?_ fun hzero => absurd hzero hcnt
    have hpos : m.core.prefetchCnt.toNat ≠ 0 := fun hzero => hcnt (BitVec.eq_of_toNat_eq hzero)
    have hindex : 7 - m.core.prefetchCnt.toNat < 7 ∧ m.core.prefetchCnt.toNat ≤ 7 := by omega
    unfold fetch
    rw [if_neg hcnt, dif_pos hindex]
    exact yields_ok _

theorem memoryAccess_yields_iff (hmain : m.bus.IsMain) (hspans : m.bus.mmu.SpansRam) :
    Yields (memoryAccess residue m) ↔
      (m.core.decoded.readMem = true ∨ m.core.decoded.writeMem = true → m.bus.mutex = false) := by
  obtain ⟨ram, csr, mutex, status, mmu, hbus⟩ := hmain
  unfold memoryAccess
  rw [hbus] at hspans ⊢
  cases mutex with
  | true =>
      have hlocked : ¬ (emulatorBus ram csr true status mmu).mutex = false := nofun
      by_cases hread : m.core.decoded.readMem = true
      · rw [if_pos hread, busReadSingle_locked rfl]
        exact iff_of_false (not_yields_error _) fun h => hlocked (h (Or.inl hread))
      · rw [if_neg hread]
        by_cases hwrite : m.core.decoded.writeMem = true
        · rw [if_pos hwrite, busWriteSingle_locked rfl]
          exact iff_of_false (not_yields_error _) fun h => hlocked (h (Or.inr hwrite))
        · rw [if_neg hwrite]
          exact iff_of_true (yields_ok _) fun h => (h.elim hread hwrite).elim
  | false =>
      refine iff_of_true ?_ fun _ => rfl
      refine yields_ite ?_ (yields_ite ?_ (yields_ok _))
      · exact yields_bind (busReadSingle_yields _) fun _ _ => yields_ite (yields_ok _) (yields_ok _)
      · exact yields_bind (busWriteSingle_yields hspans _) fun _ _ =>
          yields_ite (yields_ok _) (yields_ok _)

end Stages

/-! ## System calls -/

/-- The device of a block that starts there has a handler for blocks, or there is none. -/
def Bus.TakesBlockReads (bus : Bus) (a : Size) : Prop :=
  bus.mutex = false ∧ (csrMmioDevice .ready).covers a = false

/-- And RAM is ready for one. -/
def Bus.TakesBlockWrites (bus : Bus) (a : Size) : Prop :=
  bus.TakesBlockReads a ∧ ((ramDevice .ready).covers a = true →
    ∃ dev, bus.mmioDevices.head? = some dev ∧ dev.state = .ready)

/-- What `bus_read_string` copies from there fits the buffer of `sys_open`. -/
def Bus.FitsPath (bus : Bus) (residue : Nat → BitVec 8) (a : Size) : Prop :=
  ∃ buf bus', busReadString residue bus a = .ok (buf, bus') ∧ buf.length ≤ 256

/-- A block of 0x100 bytes does not fit, or is not in front of the memory. -/
def Mmu.Grants (mmu : Mmu) : Prop :=
  mmu.base.toNat + mmu.size.toNat ≤ (mmu.currVaddr.setWidth 32 : Vaddr).toNat + 0x100 ∨
    mmu.base ≤ mmu.currVaddr.setWidth 32

/-- The arguments that each call can be made with. -/
structure Machine.TakesCall (m : Machine) (host : Host) (n arg0 arg1 arg2 : Word) : Prop where
  brk : n = 214 → arg0 ≠ 0 → m.bus.mmu.Grants
  read : n = 63 → m.bus.TakesBlockWrites (wide arg1)
  write : n = 64 → arg0 ≤ 2 ∧ arg2 < 256 ∧ m.bus.TakesBlockReads (wide arg1)
  openFile : n = 1024 → m.bus.FitsPath host.residue (wide arg0)
  fstat : n = 80 → m.bus.TakesBlockWrites (wide arg1)

section Call

variable {m : Machine} {host : Host} {n arg0 arg1 arg2 : Word}

/-- The windows of the two devices are apart. -/
theorem toCsr_iff {call : BusCall} :
    call.ToCsr ↔ (csrMmioDevice .ready).covers call.offs = true :=
  ⟨fun h => h.2, fun h => ⟨ram_not_csr h, h⟩⟩

theorem busReadMultiple_takes_iff {bus : Bus} {a count : Size} {dst : Nat → BitVec 8} {aw : Width}
    (hmain : bus.IsMain) : Yields (busReadMultiple bus a dst count aw) ↔ bus.TakesBlockReads a := by
  obtain ⟨ram, csr, mutex, status, mmu, rfl⟩ := hmain
  unfold Bus.TakesBlockReads
  cases mutex with
  | true =>
      rw [busReadMultiple_locked rfl]
      exact iff_of_false (not_yields_error _) fun h => Bool.false_ne_true h.1.symm
  | false =>
      refine (busReadMultiple_yields_iff dst count).trans ?_
      have hfree : (emulatorBus ram csr false status mmu).mutex = false := rfl
      rw [toCsr_iff, Bool.not_eq_true, and_iff_right hfree]
      rfl

theorem busWriteMultiple_takes_iff {bus : Bus} {a count : Size} {src : Nat → BitVec 8} {aw : Width}
    (hmain : bus.IsMain) (hspans : bus.mmu.SpansRam) :
    Yields (busWriteMultiple bus a src count aw) ↔ bus.TakesBlockWrites a := by
  obtain ⟨ram, csr, mutex, status, mmu, rfl⟩ := hmain
  unfold Bus.TakesBlockWrites Bus.TakesBlockReads
  cases mutex with
  | true =>
      rw [busWriteMultiple_locked rfl]
      exact iff_of_false (not_yields_error _) fun h => Bool.false_ne_true h.1.1.symm
  | false =>
      refine (busWriteMultiple_yields_iff hspans src count).trans ?_
      have hfree : (emulatorBus ram csr false status mmu).mutex = false := rfl
      rw [toCsr_iff, Bool.not_eq_true, and_iff_right hfree]
      refine and_congr_right fun _ => imp_congr_right fun _ => ?_
      refine ⟨fun hready => ⟨ramDevice ram, rfl, hready⟩, ?_⟩
      rintro ⟨dev, hdev, hready⟩
      cases hdev
      exact hready

theorem mmuAllocate_yields_iff {mmu : Mmu} {perm : Perm} (hbase : 0 < mmu.base.toNat)
    (hsized : mmu.size.toNat < 2 ^ 63) : Yields (mmuAllocate mmu 0x100 perm) ↔ mmu.Grants := by
  have hblock : alignedSize 0x100 = 0x100 := by decide
  have hvalue : (0x100 : Size).toNat = 0x100 := rfl
  unfold Mmu.Grants mmuAllocate
  generalize (mmu.currVaddr.setWidth 32 : Vaddr) = start
  have hend := segment_end start (show (0x100 : Size).toNat < 2 ^ 32 by decide)
  have hfull : wide start + 0x100 ≥ wide mmu.base + mmu.size ↔
      mmu.base.toNat + mmu.size.toNat ≤ start.toNat + 0x100 := by
    rw [ge_iff_le, BitVec.le_def, memory_end hsized, hend, hvalue]
  simp only [hblock, yields_ite_ok_iff, yields_ite_error_iff, hfull]
  refine or_congr_right' fun hroom => ?_
  constructor
  · rintro ⟨-, x, hx⟩
    obtain ⟨mmu', hset, -⟩ := Transition.exists_of_bind_ok hx
    obtain ⟨hbefore, -⟩ := Transition.of_ite_error hset
    exact BitVec.not_lt.mp hbefore
  · intro hle
    have hle' := BitVec.le_def.mp hle
    refine ⟨?_, ?_⟩
    · rw [BitVec.le_def, hend, hvalue]
      omega
    · refine yields_bind ?_ fun _ _ => yields_ok _
      unfold mmuSetperm
      have hbehind : ¬ wide start + 0x100 > wide mmu.base + mmu.size := by
        rw [gt_iff_lt, BitVec.lt_def, memory_end hsized, hend, hvalue]
        omega
      rw [if_neg (BitVec.not_lt.mpr hle), if_neg hbehind]
      exact yields_ok _

theorem sysBrk_yields_iff (hbase : 0 < m.bus.mmu.base.toNat)
    (hsized : m.bus.mmu.size.toNat < 2 ^ 63) :
    Yields (sysBrk m arg0) ↔ (arg0 ≠ 0 → m.bus.mmu.Grants) := by
  unfold sysBrk
  dsimp only
  by_cases hzero : arg0 = 0
  · rw [if_pos hzero]
    exact iff_of_true (yields_ok _) fun hne => absurd hzero hne
  · have hincrease : ((arg0 - arg0) + 0x100) &&& 0xffffff00 = (0x100 : Word) := by
      rw [BitVec.sub_self]
      decide
    rw [if_neg hzero, hincrease, imp_iff_right hzero, ← mmuAllocate_yields_iff hbase hsized]
    exact yields_pair_iff

theorem sysOpen_yields_iff :
    Yields (sysOpen host m arg0 arg1 arg2) ↔ m.bus.FitsPath host.residue (wide arg0) := by
  unfold sysOpen
  constructor
  · rintro ⟨r, hr⟩
    obtain ⟨⟨buf, bus⟩, hread, hr⟩ := Transition.exists_of_bind_ok hr
    obtain ⟨hfits, -⟩ := Transition.of_ite_error hr
    exact ⟨buf, bus, hread, Nat.not_lt.mp hfits⟩
  · rintro ⟨buf, bus, hread, hfits⟩
    rw [hread, Transition.ok_bind]
    dsimp only
    rw [if_neg (Nat.not_lt.mpr hfits)]
    exact yields_ite (yields_ok _) (yields_ok _)

theorem sysRead_yields_iff (hmain : m.bus.IsMain) (hspans : m.bus.mmu.SpansRam) :
    Yields (sysRead host m arg0 arg1 arg2) ↔ m.bus.TakesBlockWrites (wide arg1) :=
  yields_pair_iff.trans (busWriteMultiple_takes_iff hmain hspans)

theorem sysFstat_yields_iff (hmain : m.bus.IsMain) (hspans : m.bus.mmu.SpansRam) :
    Yields (sysFstat host m arg0 arg1) ↔ m.bus.TakesBlockWrites (wide arg1) :=
  yields_pair_iff.trans (busWriteMultiple_takes_iff hmain hspans)

theorem sysWrite_yields_iff (hmain : m.bus.IsMain) :
    Yields (sysWrite host m arg0 arg1 arg2) ↔
      arg0 ≤ 2 ∧ arg2 < 256 ∧ m.bus.TakesBlockReads (wide arg1) := by
  unfold sysWrite
  rw [yields_ite_error_iff, yields_ite_error_iff, not_not, not_not,
    ← @busReadMultiple_takes_iff m.bus (wide arg1) (wide arg2) host.buffer .byte hmain]
  exact and_congr_right fun _ => and_congr_right fun _ => yields_pair_iff

/-- Which calls are answered. -/
theorem handleSyscall_yields_iff (hmain : m.bus.IsMain) (hspans : m.bus.mmu.SpansRam)
    (hbase : 0 < m.bus.mmu.base.toNat) (hsized : m.bus.mmu.size.toNat < 2 ^ 63) :
    Yields (handleSyscall host m n arg0 arg1 arg2) ↔ m.TakesCall host n arg0 arg1 arg2 := by
  constructor
  · intro h
    refine ⟨?_, ?_, ?_, ?_, ?_⟩
    · rintro rfl
      exact (sysBrk_yields_iff hbase hsized).mp h
    · rintro rfl
      exact (sysRead_yields_iff hmain hspans).mp h
    · rintro rfl
      exact (sysWrite_yields_iff hmain).mp h
    · rintro rfl
      exact sysOpen_yields_iff.mp h
    · rintro rfl
      exact (sysFstat_yields_iff hmain hspans).mp h
  · intro h
    refine yields_ite (yields_ok _) (yields_ite (yields_ok _) ?_)
    refine yields_cases (fun hn => (sysBrk_yields_iff hbase hsized).mpr (h.brk hn)) fun _ => ?_
    refine yields_cases (fun hn => (sysRead_yields_iff hmain hspans).mpr (h.read hn)) fun _ => ?_
    refine yields_cases (fun hn => (sysWrite_yields_iff hmain).mpr (h.write hn)) fun _ => ?_
    refine yields_cases (fun hn => sysOpen_yields_iff.mpr (h.openFile hn)) fun _ => ?_
    refine yields_ite (yields_ite (yields_ok _) (yields_ok _)) (yields_ite (yields_ok _) ?_)
    exact yields_cases (fun hn => (sysFstat_yields_iff hmain hspans).mpr (h.fstat hn)) fun _ =>
      yields_ok _

end Call

/-! ## Turns -/

theorem covers_stable : Mmu.Stable Mmu.Covers where
  flag := fun _ h => ⟨h.data, h.perm, h.dirty⟩
  written := fun _ _ _ _ _ h => ⟨h.data, h.perm, h.dirty⟩

/-- What every machine of the thread loop keeps to. -/
structure Machine.Orderly (m : Machine) : Prop where
  sound : m.core.Sound
  issued : m.core.state = .execute → m.core.Issued
  main : m.bus.IsMain
  spans : m.bus.mmu.SpansRam
  based : 0 < m.bus.mmu.base.toNat
  covers : m.bus.mmu.Covers

/-- The next turn is one that returns: what each stage needs for that. -/
def Machine.Proceeds (m : Machine) (host : Host) : Prop :=
  match m.core.state with
  | .fetch => m.core.prefetchCnt = 0 → m.bus.mutex = false ∧ m.bus.Reads m.core.pc 32
  | .decode | .writeback => True
  | .execute => Labelled m.core.instruction
  | .memory =>
      m.core.decoded.readMem = true ∨ m.core.decoded.writeMem = true → m.bus.mutex = false
  | .trap =>
      m.core.trapState = .enter →
        (m.core.csr mcause).setWidth 32 = TrapCause.envCallUmode.code →
          m.TakesCall host (m.core.registers 17) (m.core.registers 10) (m.core.registers 11)
            (m.core.registers 12)

section Turns

variable {m : Machine} {t t' : Turn} {host : Host} {hosts : List Host}

theorem Machine.Orderly.trapHandler_yields_iff (h : m.Orderly) :
    Yields (trapHandler host m.entered) ↔
      ((m.core.csr mcause).setWidth 32 = TrapCause.envCallUmode.code →
        m.TakesCall host (m.core.registers 17) (m.core.registers 10) (m.core.registers 11)
          (m.core.registers 12)) := by
  obtain ⟨csr, hcall⟩ := trapHandler_call host m.entered
  have hcause : (csrReadClear32 m.entered.core.csr mcause 0).1 =
      (m.core.csr mcause).setWidth 32 := by
    rw [← Csr.set_of_ne m.core.csr (show mcause ≠ mepc by decide) (wide m.core.pc)]
    rfl
  rw [hcall, hcause]
  by_cases hecall : (m.core.csr mcause).setWidth 32 = TrapCause.envCallUmode.code
  · rw [if_pos hecall, imp_iff_right hecall]
    have hyields := @handleSyscall_yields_iff (m.entered.withCsr csr) host (m.core.registers 17)
      (m.core.registers 10) (m.core.registers 11) (m.core.registers 12) h.main h.spans h.based
      h.covers.sized
    refine hyields.trans ⟨fun hcall => ?_, fun hcall => ?_⟩
    · exact ⟨hcall.brk, hcall.read, hcall.write, hcall.openFile, hcall.fstat⟩
    · exact ⟨hcall.brk, hcall.read, hcall.write, hcall.openFile, hcall.fstat⟩
  · rw [if_neg hecall]
    exact iff_of_true (yields_ok _) fun heq => absurd heq hecall

/-- A turn whose cycle does not end in front of the handler returns with the cycle. -/
theorem emulatorTurn_yields_quiet
    (hquiet : ¬ (m.core.state = .trap ∧ m.core.trapState = .enter)) :
    Yields (emulatorTurn host m) ↔ Yields (coreCycle (host.residue 0) m) := by
  rw [emulatorTurn_eq]
  constructor
  · rintro ⟨t, ht⟩
    obtain ⟨m', hcycle, -⟩ := Transition.exists_of_bind_ok ht
    exact ⟨m', hcycle⟩
  · rintro ⟨m', hcycle⟩
    have hnot : m'.core.state = .trap → m'.core.trapState ≠ .handle := by
      intro htrap hhandle
      obtain ⟨hstate, henter, -⟩ := coreCycle_entered hcycle htrap hhandle
      exact hquiet ⟨hstate, henter⟩
    rw [hcycle, Transition.ok_bind, handleTrap_quiet hnot]
    exact yields_ok _

theorem Machine.Orderly.turn_iff (h : m.Orderly) :
    Yields (emulatorTurn host m) ↔ m.Proceeds host := by
  unfold Machine.Proceeds
  cases hstate : m.core.state with
  | fetch =>
      rw [emulatorTurn_yields_quiet (by rw [hstate]; exact fun htrap => nomatch htrap.1),
        coreCycle_fetch_eq hstate, yields_pair_iff]
      exact fetch_yields_iff h.main h.covers.sized h.sound.bounded
  | decode =>
      rw [emulatorTurn_yields_quiet (by rw [hstate]; exact fun htrap => nomatch htrap.1)]
      unfold coreCycle
      rw [hstate]
      exact iff_of_true (yields_ok _) trivial
  | execute =>
      rw [emulatorTurn_yields_quiet (by rw [hstate]; exact fun htrap => nomatch htrap.1),
        ← (h.issued hstate).yields_iff]
      unfold coreCycle
      rw [hstate]
      exact yields_pair_iff
  | memory =>
      rw [emulatorTurn_yields_quiet (by rw [hstate]; exact fun htrap => nomatch htrap.1),
        coreCycle_memory_eq hstate, yields_pair_iff]
      exact memoryAccess_yields_iff h.main h.spans
  | writeback =>
      rw [emulatorTurn_yields_quiet (by rw [hstate]; exact fun htrap => nomatch htrap.1),
        coreCycle_writeback hstate]
      exact iff_of_true (yields_ok _) trivial
  | trap =>
      cases htrap : m.core.trapState with
      | none => exact absurd htrap (h.sound.trapped.mp hstate)
      | enter =>
          have hhandle : m.entered.core.state = .trap ∧ m.entered.core.trapState = .handle :=
            ⟨hstate, rfl⟩
          rw [emulatorTurn_eq, coreCycle_enter hstate htrap, Transition.ok_bind, handleTrap,
            if_pos hhandle]
          refine (yields_pair_iff.trans h.trapHandler_yields_iff).trans ?_
          exact (imp_iff_right rfl).symm
      | handle =>
          rw [emulatorTurn_yields_quiet (by rw [htrap]; exact fun henter => nomatch henter.2),
            coreCycle_handle hstate htrap]
          exact iff_of_true (yields_ok _) nofun
      | exit =>
          rw [emulatorTurn_yields_quiet (by rw [htrap]; exact fun henter => nomatch henter.2),
            coreCycle_exit hstate htrap]
          exact iff_of_true (yields_ok _) nofun

/-- A machine that hosts a user, on memory that the emulator has set up. -/
theorem Machine.Hosts.orderly {u : Isa.User World} (h : m.Hosts u) (hspans : m.bus.mmu.SpansRam)
    (hbase : 0 < m.bus.mmu.base.toNat) (hcovers : m.bus.mmu.Covers) : m.Orderly := by
  obtain ⟨status, state, hbus⟩ := h.backs
  refine ⟨⟨?_, ?_, ?_, h.ahead.1⟩, ?_, ⟨_, _, _, _, _, hbus⟩, hspans, hbase, hcovers⟩
  · rw [h.state, h.trapState]
    exact ⟨nofun, fun hsome => absurd rfl hsome⟩
  · rw [h.registers]
    exact h.zero
  · rw [h.trapState]
    nofun
  · rw [h.state]
    nofun

theorem ThreadStep.issued (h : ThreadStep emulatorTurn t host t')
    (hgoes : t'.machine.core.state = .execute) : t'.machine.core.Issued := by
  obtain ⟨m, hcycle, hhandler⟩ := h.surrounded
  by_cases hhandle : m.core.state = .trap ∧ m.core.trapState = .handle
  · rw [if_pos hhandle] at hhandler
    obtain ⟨csr, hsaves⟩ := hhandler
    rw [hsaves] at hgoes
    cases hhandle.1.symm.trans hgoes
  · rw [if_neg hhandle] at hhandler
    rw [hhandler] at hgoes ⊢
    cases coreCycle_cases hcycle with
    | decoded hstate => exact coreCycle_issued hstate hcycle hgoes
    | fetched _ hfetched =>
        rw [hfetched.core] at hgoes
        cases hgoes
    | executed _ hout | accessed _ hout =>
        cases hout with
        | done => cases hgoes
        | trapped => cases hgoes
    | written | resumed => cases hgoes
    | entered hstate | exiting hstate => cases hstate.symm.trans hgoes

theorem ThreadStep.orderly (h : ThreadStep emulatorTurn t host t') (ho : t.machine.Orderly) :
    t'.machine.Orderly := by
  obtain ⟨hbase, hsize⟩ := h.extent
  have hcovers : t'.machine.bus.mmu.Covers := h.stable covers_stable ho.covers fun _ _ hm _ => by
    rintro ⟨addr, mmu⟩ hallocate
    exact (hm.allocate hallocate).1
  refine ⟨(surroundedStep_control ho.sound h.surrounded).2.1, h.issued, h.isMain ho.main,
    ?_, ?_, hcovers⟩
  · unfold Mmu.SpansRam
    rw [hbase, hsize]
    exact ho.spans
  · rw [hbase]
    exact ho.based

/-- Behind every run, the next turn is made if and only if the loop goes on and the machine
has what its stage needs. -/
theorem turn_returns_iff {s : Turn} (ho : s.machine.Orderly)
    (hrun : Run (ThreadStep emulatorTurn) s hosts t) (host : Host) :
    (∃ t', ThreadStep emulatorTurn t host t') ↔ t.running = true ∧ t.machine.Proceeds host := by
  have hordered : t.machine.Orderly :=
    hrun.invariant (I := fun t => t.machine.Orderly) ho fun h hstep => ThreadStep.orderly hstep h
  constructor
  · rintro ⟨t', hrunning, hturn⟩
    exact ⟨hrunning, hordered.turn_iff.mp ⟨t', hturn⟩⟩
  · rintro ⟨hrunning, hproceeds⟩
    obtain ⟨t', hturn⟩ := hordered.turn_iff.mpr hproceeds
    exact ⟨t', hrunning, hturn⟩

end Turns

/-! ## A program that writes -/

/-- The arguments of a `write` of nothing to a descriptor. -/
def writeRegs (fd : Word) : Regs := fun r => if r = 17 then 64 else if r = 10 then fd else 0

def writeCall (fd : Word) : Isa.User World := programUser [0x00000073] (writeRegs fd)

def writeTurn (fd : Word) : Turn := Turn.first (programMachine [0x00000073] (writeRegs fd))

theorem writeCall_hosted (fd : Word) : (writeCall fd).HostedBy (writeTurn fd) :=
  programUser_hosted rfl

theorem writeTurn_orderly (fd : Word) : (writeTurn fd).machine.Orderly :=
  (writeCall_hosted fd).machine.orderly
    (show wide ramEnd ≤ wide ramStart + wide ramSize by decide) (show 0 < ramStart.toNat by decide)
    (show (programMmu [0x00000073]).Covers from ⟨by decide, by decide, by decide⟩)

/-- Three turns to the handler, which takes the descriptors up to 2. -/
theorem writeTurn_called (fd : Word) :
    ∃ t, Run (ThreadStep emulatorTurn) (writeTurn fd) (List.replicate 3 quietHost) t ∧
      (t.running = true ∧ t.machine.Proceeds quietHost ↔ fd ≤ 2) := by
  have hshows : emulatorPlatform.Shows (writeCall fd).world (writeCall fd).pc .ecall :=
    @programWorld_shows [0x00000073] 0 _ (by decide) (by decide)
  obtain ⟨m, hrun, hstate, htrap, -, hcause, hcalling, -⟩ :=
    (writeCall_hosted fd).machine.call_turns (writeCall_hosted fd).running hshows quietHost
      quietHost quietHost
  have hregisters : m.core.registers = writeRegs fd := hcalling.registers
  obtain ⟨status, state, hbus⟩ := hcalling.backs
  have hreads : m.bus.TakesBlockReads (wide 0) := by
    rw [show m.bus = _ from hbus]
    exact ⟨rfl, by decide⟩
  refine ⟨Turn.first m, hrun, ?_⟩
  unfold Machine.Proceeds
  rw [show (Turn.first m).machine = m from rfl, hstate]
  dsimp only
  rw [hcause, hregisters]
  constructor
  · rintro ⟨-, htakes⟩
    exact ((htakes htrap rfl).write rfl).1
  · intro hfd
    have hnumber : writeRegs fd 17 = 64 := rfl
    have hlength : writeRegs fd 12 = 0 := rfl
    rw [hnumber, hlength]
    refine ⟨rfl, fun _ _ => ⟨?_, ?_, fun _ => ⟨hfd, by decide, hreads⟩, ?_, ?_⟩⟩
    all_goals exact fun hn => absurd hn (by decide)

/-- A program that writes to the standard output, and one that writes to descriptor 3. -/
theorem writeTurn_returns :
    (∃ t, Run (ThreadStep emulatorTurn) (writeTurn 1) (List.replicate 3 quietHost) t ∧
      ∃ t', ThreadStep emulatorTurn t quietHost t') ∧
    ∃ t, Run (ThreadStep emulatorTurn) (writeTurn 3) (List.replicate 3 quietHost) t ∧
      ¬ ∃ t', ThreadStep emulatorTurn t quietHost t' := by
  obtain ⟨t, hrun, hproceeds⟩ := writeTurn_called 1
  obtain ⟨u, hrun', hproceeds'⟩ := writeTurn_called 3
  have hgoes := turn_returns_iff (writeTurn_orderly 1) hrun quietHost
  have hends := turn_returns_iff (writeTurn_orderly 3) hrun' quietHost
  refine ⟨⟨t, hrun, hgoes.mpr (hproceeds.mpr (by decide))⟩, u, hrun', fun hgoes' => ?_⟩
  exact absurd (hproceeds'.mp (hends.mp hgoes')) (by decide)

end CRiscV
