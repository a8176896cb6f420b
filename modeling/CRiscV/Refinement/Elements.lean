/-
Block transfers against single transfers of the same elements.

The memory ends up the same at every width.  What `bus_write_multiple` returns is
another matter: RAM answers with bytes, and the bus compares them with elements.
-/
import CRiscV.Bus.Block
import CRiscV.Refinement.Transfer

namespace CRiscV

/-- The `n` addresses from `a` on are in the window of RAM. -/
def InWindow (a : Size) (n : Nat) : Prop :=
  ∀ i < n, 0x10000 ≤ a.toNat + i ∧ a.toNat + i < 0x7ffff

/-- The memory holds the address, with a permission that has `P`. -/
def Mmu.Lets (mmu : Mmu) (P : Perm → Prop) (x : Nat) : Prop :=
  mmu.base.toNat ≤ x ∧ x < mmu.base.toNat + mmu.size.toNat ∧ P (mmu.permAt x)

/-- Element `k` of a buffer, as a single transfer takes it. -/
def element (aw : Width) (buf : Nat → BitVec 8) (k : Nat) : Word :=
  Bytes.ofBytes 32 aw.size fun j => buf (k * aw.size + j)

/-- The first elements of a buffer, written one after the other. -/
def busWriteElements (bus : Bus) (a : Size) (buf : Nat → BitVec 8) (aw : Width) :
    Nat → Except Abort Bus
  | 0 => .ok bus
  | k + 1 => do
      let bus ← busWriteElements bus a buf aw k
      busWriteSingle bus (a + BitVec.ofNat 64 (k * aw.size)) (element aw buf k) aw

/-- The bytes of a block. -/
def blockSize (count : Size) (aw : Width) : Nat := count.toNat * aw.size

/-- The whole block may be written. -/
def Mmu.TakesBlock (mmu : Mmu) (a count : Size) (aw : Width) : Prop :=
  ∀ i < blockSize count aw, mmu.Lets Perm.Writable (a.toNat + i)

/-- A block that may be written is written as its elements would be, and can be read
back; any other is refused as a whole. -/
structure Bus.BlockContract (bus : Bus) (a : Size) (buf : Nat → BitVec 8) (count : Size)
    (aw : Width) : Prop where
  taken : bus.mmu.TakesBlock a count aw →
    ∃ bus', busWriteMultiple bus a buf count aw = .ok (count, bus') ∧ bus'.status = .ok ∧
      (∃ single, busWriteElements bus a buf aw count.toNat = .ok single ∧
        bus'.mmu.data = single.mmu.data ∧ bus'.mmu.perm = single.mmu.perm) ∧
      ∀ dst, ∃ out after, busReadMultiple bus' a dst count aw = .ok (count, out, after) ∧
        ∀ i < blockSize count aw, out i = buf i
  refused : ¬ bus.mmu.TakesBlock a count aw →
    ∃ bus', busWriteMultiple bus a buf count aw = .ok (0, bus') ∧ bus'.status ≠ .ok ∧
      bus'.mmu.data = bus.mmu.data ∧ bus'.mmu.perm = bus.mmu.perm

/-- RAM is ready and the bus free, and a block that may be written is empty or one of
bytes, starts in RAM, and can be read afterwards. -/
structure BlockCounted (mutex : Bool) (ram : DeviceState) (mmu : Mmu) (a count : Size)
    (aw : Width) : Prop where
  free : mutex = false
  ready : ram = .ready
  counted : mmu.TakesBlock a count aw →
    (count = 0 ∨ aw = .byte) ∧ (ramDevice .ready).covers a = true ∧
      ∀ i < blockSize count aw, (mmu.permAt (a.toNat + i)).Readable ∨
        mmu.permAt (a.toNat + i) &&& mpermRaw = mpermRaw

/-! ## The range of a block -/

section Range

variable {a count : Size} {aw : Width} {mmu : Mmu}

theorem Width.size_pos (aw : Width) : 0 < aw.size := by
  cases aw <;> decide

theorem Width.size_le (aw : Width) : aw.size ≤ 4 := by
  cases aw <;> decide

/-- A block in the window is small, and starts in it if it is not empty. -/
theorem InWindow.bound (h : InWindow a (blockSize count aw)) :
    blockSize count aw < 0x80000 ∧ (blockSize count aw ≠ 0 →
      a.toNat + blockSize count aw ≤ 0x7ffff ∧ 0x10000 ≤ a.toNat) := by
  by_cases hzero : blockSize count aw = 0
  · omega
  · have hfirst := h 0 (by omega)
    have hlast := h (blockSize count aw - 1) (by omega)
    omega

theorem blockSize_eq_zero_iff (aw : Width) : blockSize count aw = 0 ↔ count = 0 := by
  have hpos := aw.size_pos
  unfold blockSize
  rw [Nat.mul_eq_zero]
  constructor
  · intro h
    exact BitVec.eq_of_toNat_eq (h.resolve_right (by omega))
  · intro h
    exact Or.inl (congrArg BitVec.toNat h)

/-- The bytes as the source computes them. -/
theorem InWindow.bytes_toNat (h : InWindow a (blockSize count aw)) :
    (count * widthMult aw).toNat = blockSize count aw := by
  have hlt := h.bound.1
  rw [BitVec.toNat_mul, widthMult_toNat]
  exact Nat.mod_eq_of_lt (by unfold blockSize at hlt; omega)

theorem InWindow.covers (h : InWindow a (blockSize count aw)) (hne : count ≠ 0) :
    (ramDevice .ready).covers a = true := by
  have hsize := mt (blockSize_eq_zero_iff aw).mp hne
  have hbound := h.bound.2 hsize
  rw [ramDevice_covers_range]
  omega

/-- The address as RAM gets it. -/
theorem setWidth_toNat (a : Size) (h : a.toNat < 2 ^ 32) :
    (a.setWidth 32 : Vaddr).toNat = a.toNat := by
  rw [BitVec.toNat_setWidth, Nat.mod_eq_of_lt h]

/-- The MMU accepts the block if every byte lets it. -/
theorem InWindow.accepts_iff (h : InWindow a (blockSize count aw))
    (hsized : mmu.size.toNat < 2 ^ 63) (hne : count ≠ 0) :
    mmu.Accepts (a.setWidth 32) (count * widthMult aw) mpermWrite ↔ mmu.TakesBlock a count aw := by
  have hbytes := h.bytes_toNat
  have hlt := h.bound.1
  have hsize := mt (blockSize_eq_zero_iff aw).mp hne
  have hbound := h.bound.2 hsize
  have hv := setWidth_toNat a (by omega)
  rw [← Mmu.allows_write_iff hsized (by omega), hbytes]
  unfold Mmu.Allows Mmu.TakesBlock Mmu.Holds
  rw [hv]
  constructor
  · rintro ⟨⟨hlo, hhi⟩, hall⟩ i hi
    exact ⟨by omega, by omega, hall i hi⟩
  · intro hall
    have hfirst := hall 0 (by omega)
    have hlast := hall (blockSize count aw - 1) (by omega)
    unfold Mmu.Lets at hfirst hlast
    exact ⟨⟨by omega, by omega⟩, fun i hi => (hall i hi).2.2⟩

end Range

/-! ## The elements one after the other -/

section Elements

variable {a count : Size} {aw : Width} {mmu : Mmu} {buf : Nat → BitVec 8} {ram csr : DeviceState}
  {status : BusStatus}

/-- The memory after its first `n` bytes from `lo` on have been written. -/
structure Mmu.WrittenTo (mmu mmu' : Mmu) (buf : Nat → BitVec 8) (lo n : Nat) : Prop where
  base : mmu'.base = mmu.base
  size : mmu'.size = mmu.size
  data : mmu'.data = Span.copy lo (lo + n) buf mmu.data
  perm : mmu'.perm = Span.update lo (lo + n) (fun _ p => permWritten p) mmu.perm

theorem Mmu.writtenTo_zero (lo : Nat) : mmu.WrittenTo mmu buf lo 0 where
  base := rfl
  size := rfl
  data := (Span.update_empty (Nat.le_refl lo)).symm
  perm := (Span.update_empty (Nat.le_refl lo)).symm

theorem Mmu.written_writtenTo (buf : Nat → BitVec 8) {v : Vaddr} {n : Size} (hn : n.toNat < 2 ^ 63)
    (hbase : mmu.base.toNat ≤ v.toNat) :
    mmu.WrittenTo (mmu.written buf v n) buf (v.toNat - mmu.base.toNat) n.toNat := by
  have hlo := Mmu.offset_toNat hbase
  have hend := mmu.offsetEnd_toNat v hn
  refine ⟨rfl, rfl, ?_, ?_⟩
  · rw [← hlo]
    rfl
  · rw [← hlo, ← hend]
    rfl

/-- One more element behind those that were written. -/
theorem Mmu.WrittenTo.snoc {mmu' : Mmu} {lo k : Nat}
    (h : mmu.WrittenTo mmu' buf lo (k * aw.size)) (v : Vaddr)
    (hv : v.toNat - mmu.base.toNat = lo + k * aw.size) (hbase : mmu.base.toNat ≤ v.toNat) :
    mmu.WrittenTo (mmu'.written (Bytes.byteAt (element aw buf k)) v aw.bytes) buf lo
      ((k + 1) * aw.size) := by
  have hbytes := aw.bytes_toNat
  have hnext : lo + k * aw.size + aw.size = lo + (k + 1) * aw.size := by
    rw [Nat.succ_mul]
    omega
  obtain ⟨hb, hs, hdata, hperm⟩ := h
  rw [← hb] at hv hbase
  obtain ⟨-, -, hdata', hperm'⟩ :=
    Mmu.written_writtenTo (Bytes.byteAt (element aw buf k)) aw.bytes_lt hbase
  rw [hv, hbytes, hnext] at hdata' hperm'
  refine ⟨hb, hs, ?_, ?_⟩
  · have hstored : Span.copy (lo + k * aw.size) (lo + (k + 1) * aw.size)
        (Bytes.byteAt (element aw buf k)) mmu'.data =
        Span.copy (lo + k * aw.size) (lo + (k + 1) * aw.size) (fun j => buf (k * aw.size + j))
          mmu'.data := by
      apply Span.copy_congr
      intro j hj
      have hlt : j < aw.size := by omega
      have hwidth := aw.size_le
      exact Bytes.byteAt_ofBytes _ hlt (by omega)
    rw [hdata', hstored, hdata]
    exact Span.copy_copy (by omega)
  · rw [hperm', hperm]
    exact Span.update_update (Nat.le_add_right _ _) (by omega)

/-- Single writes of the first elements write their bytes, at every width. -/
theorem busWriteElements_eq (ram csr : DeviceState) (status : BusStatus) (buf : Nat → BitVec 8)
    (hwindow : InWindow a (blockSize count aw))
    (hsized : mmu.size.toNat < 2 ^ 63) (htakes : mmu.TakesBlock a count aw) {k : Nat}
    (hk : k ≤ count.toNat) :
    ∃ ram' status' mmu', busWriteElements (emulatorBus ram csr false status mmu) a buf aw k =
        .ok (emulatorBus ram' csr false status' mmu') ∧
      mmu.WrittenTo mmu' buf (a.toNat - mmu.base.toNat) (k * aw.size) := by
  induction k with
  | zero =>
      refine ⟨ram, status, mmu, rfl, ?_⟩
      rw [Nat.zero_mul]
      exact Mmu.writtenTo_zero _
  | succ k ih =>
      obtain ⟨ram', status', mmu', hbefore, hwritten⟩ := ih (Nat.le_of_succ_le hk)
      have hpos := aw.size_pos
      have hstop : k * aw.size + aw.size ≤ blockSize count aw := by
        rw [← Nat.succ_mul]
        exact Nat.mul_le_mul_right _ hk
      obtain ⟨hlt, hbound⟩ := hwindow.bound
      obtain ⟨hend, hstart⟩ := hbound (by omega)
      have haddr : (a + BitVec.ofNat 64 (k * aw.size)).toNat = a.toNat + k * aw.size := by
        rw [BitVec.toNat_add, BitVec.toNat_ofNat]
        omega
      have hv := setWidth_toNat (a + BitVec.ofNat 64 (k * aw.size)) (by omega)
      have hcovers : (ramDevice .ready).covers (a + BitVec.ofNat 64 (k * aw.size)) = true := by
        rw [ramDevice_covers_range]
        omega
      have hbase := (htakes 0 (by omega)).1
      have hlast := (htakes (k * aw.size + aw.size - 1) (by omega)).2.1
      have hnext := hwritten.snoc ((a + BitVec.ofNat 64 (k * aw.size)).setWidth 32)
        (by omega) (by omega)
      have haccepts : mmu'.Accepts ((a + BitVec.ofNat 64 (k * aw.size)).setWidth 32) aw.bytes
          mpermWrite := by
        obtain ⟨hb, hs, -, hperm⟩ := hwritten
        rw [← Mmu.allows_write_iff (by rw [hs]; exact hsized) aw.bytes_lt, aw.bytes_toNat]
        unfold Mmu.Allows Mmu.Holds Mmu.permAt
        rw [hb, hs, hperm, hv, haddr]
        refine ⟨by omega, ?_⟩
        intro j hj
        have hbyte := (htakes (k * aw.size + j) (by omega)).2.2
        unfold Mmu.permAt at hbyte
        rw [Span.update_of_not_mem (by omega), Nat.add_assoc]
        exact hbyte
      have hsingle : (ramDevice ram').writeSingle (emulatorBus ram' csr false status' mmu').mmu
          ((a + BitVec.ofNat 64 (k * aw.size)).setWidth 32) (element aw buf k) aw =
          .ok (ramDevice .ready, mmu'.written (Bytes.byteAt (element aw buf k))
            ((a + BitVec.ofNat 64 (k * aw.size)).setWidth 32) aw.bytes) :=
        writeRamSingle_accepted haccepts
      refine ⟨.ready, .ok, _, ?_, hnext⟩
      rw [busWriteElements, hbefore, Transition.ok_bind,
        busWriteSingle_routed rfl (emulatorBus_ram hcovers) writable, hsingle]
      rfl

end Elements

/-! ## The contract -/

section Contract

variable {a count : Size} {aw : Width} {mmu : Mmu} {buf : Nat → BitVec 8} {ram csr : DeviceState}
  {status : BusStatus}

/-- A contract is met by calls that return. -/
theorem Bus.BlockContract.returns {bus : Bus} (h : bus.BlockContract a buf count aw) :
    ∃ x, busWriteMultiple bus a buf count aw = .ok x := by
  by_cases htakes : bus.mmu.TakesBlock a count aw
  · obtain ⟨bus', hwrite, -⟩ := h.taken htakes
    exact ⟨_, hwrite⟩
  · obtain ⟨bus', hwrite, -⟩ := h.refused htakes
    exact ⟨_, hwrite⟩

/-- No byte, no condition on the memory. -/
theorem takesBlock_empty : mmu.TakesBlock a 0 aw := by
  intro i hi
  rw [(blockSize_eq_zero_iff aw).mpr rfl] at hi
  exact absurd hi (Nat.not_lt_zero i)

theorem blockRead_empty (ram csr : DeviceState) (status : BusStatus) (dst : Nat → BitVec 8)
    (hcovers : (ramDevice .ready).covers a = true) :
    ∃ out after, busReadMultiple (emulatorBus ram csr false status mmu) a dst 0 aw =
      .ok (0, out, after) := by
  by_cases haccepts : mmu.Accepts (a.setWidth 32) (0 * widthMult aw) mpermRead
  · exact ⟨_, _, blockRead_accepted ram csr status dst hcovers haccepts⟩
  · obtain ⟨state, hread⟩ := blockRead_refused ram csr status dst hcovers haccepts
    rw [if_pos rfl] at hread
    exact ⟨_, _, hread⟩

theorem blockWrite_empty (csr : DeviceState) (status : BusStatus) (buf : Nat → BitVec 8)
    (hcovers : (ramDevice .ready).covers a = true) :
    ∃ ram' mmu', busWriteMultiple (emulatorBus .ready csr false status mmu) a buf 0 aw =
        .ok (0, emulatorBus ram' csr false .ok mmu') ∧
      mmu'.data = mmu.data ∧ mmu'.perm = mmu.perm := by
  have hbytes : (0 : Size) * widthMult aw = 0 := BitVec.zero_mul
  have hlt : ((0 : Size) * widthMult aw).toNat < 2 ^ 63 := by
    rw [hbytes]
    decide
  by_cases haccepts : mmu.Accepts (a.setWidth 32) (0 * widthMult aw) mpermWrite
  · have hnone : ((0 : Size) * widthMult aw).toNat = 0 := congrArg BitVec.toNat hbytes
    obtain ⟨-, -, hdata, hperm⟩ := Mmu.written_writtenTo buf hlt haccepts.base_le
    rw [hnone, Nat.add_zero, Span.copy, Span.update_empty (Nat.le_refl _)] at hdata
    rw [hnone, Nat.add_zero, Span.update_empty (Nat.le_refl _)] at hperm
    exact ⟨_, _, blockWrite_accepted csr status buf hcovers hlt haccepts hbytes, hdata, hperm⟩
  · obtain ⟨state, hwrite⟩ := blockWrite_refused csr status buf hcovers hlt haccepts
    rw [if_pos rfl] at hwrite
    exact ⟨_, _, hwrite, rfl, rfl⟩

/-- An empty block is asked of some device as well. -/
theorem Bus.BlockContract.covers
    (h : (emulatorBus ram csr false status mmu).BlockContract a buf count aw)
    (hwindow : InWindow a (blockSize count aw)) : (ramDevice .ready).covers a = true := by
  by_contra hcovers
  have hzero : count = 0 := by
    by_contra hne
    exact hcovers (hwindow.covers hne)
  rw [hzero] at h
  obtain ⟨bus', hwrite, hstatus, -⟩ := h.taken takesBlock_empty
  rw [Bool.not_eq_true] at hcovers
  cases hcsr : (csrMmioDevice .ready).covers a with
  | true =>
      rw [blockWrite_csr ram csr status buf hcovers hcsr] at hwrite
      split_ifs at hwrite
  | false =>
      rw [blockWrite_unmapped ram csr status buf hcovers hcsr] at hwrite
      cases hwrite
      cases hstatus

theorem blockContract_empty (hcovers : (ramDevice .ready).covers a = true) :
    (emulatorBus .ready csr false status mmu).BlockContract a buf 0 aw := by
  have hnone : blockSize 0 aw = 0 := (blockSize_eq_zero_iff aw).mpr rfl
  obtain ⟨ram', mmu', hwrite, hdata, hperm⟩ := @blockWrite_empty a aw mmu csr status buf hcovers
  refine ⟨fun _ => ⟨_, hwrite, rfl, ⟨_, rfl, hdata, hperm⟩, ?_⟩, fun h => absurd takesBlock_empty h⟩
  intro dst
  obtain ⟨out, after, hread⟩ := @blockRead_empty a aw mmu' ram' csr .ok dst hcovers
  refine ⟨out, after, hread, ?_⟩
  intro i hi
  rw [hnone] at hi
  exact absurd hi (Nat.not_lt_zero i)

theorem permWritten_readable_iff {p : Perm} :
    (permWritten p).Readable ↔ p.Readable ∨ p &&& mpermRaw = mpermRaw := by
  constructor
  · intro h
    by_cases hraw : p &&& mpermRaw = mpermRaw
    · exact Or.inr hraw
    · rw [permWritten, if_neg hraw] at h
      exact Or.inl h
  · exact permWritten_readable

/-- What has been written can be read back if each byte could be read or waited for its
first write. -/
theorem written_accepts_read_iff (buf : Nat → BitVec 8) {v : Vaddr} {n : Size}
    (hsized : mmu.size.toNat < 2 ^ 63) (hn : n.toNat < 2 ^ 63) (hholds : mmu.Holds v n.toNat) :
    (mmu.written buf v n).Accepts v n mpermRead ↔
      ∀ i < n.toNat, (mmu.permAt (v.toNat + i)).Readable ∨
        mmu.permAt (v.toNat + i) &&& mpermRaw = mpermRaw := by
  rw [← @Mmu.allows_read_iff (mmu.written buf v n) v n hsized hn]
  constructor
  · rintro ⟨-, hall⟩ i hi
    have hbyte := hall i hi
    rw [Mmu.written_permAt hn hholds hi] at hbyte
    exact permWritten_readable_iff.mp hbyte
  · intro hall
    refine ⟨hholds, ?_⟩
    intro i hi
    rw [Mmu.written_permAt hn hholds hi]
    exact permWritten_readable_iff.mpr (hall i hi)

theorem blockContract_taken_iff (hwindow : InWindow a (blockSize count aw))
    (hsized : mmu.size.toNat < 2 ^ 63) (hne : count ≠ 0) (htakes : mmu.TakesBlock a count aw) :
    (emulatorBus .ready csr false status mmu).BlockContract a buf count aw ↔
      aw = .byte ∧ ∀ i < blockSize count aw, (mmu.permAt (a.toNat + i)).Readable ∨
        mmu.permAt (a.toNat + i) &&& mpermRaw = mpermRaw := by
  have hcovers := hwindow.covers hne
  have hbytes := hwindow.bytes_toNat
  have hsmall := hwindow.bound.1
  have hlt : (count * widthMult aw).toNat < 2 ^ 63 := by omega
  have haccepts := (hwindow.accepts_iff hsized hne).mpr htakes
  have hholds := haccepts.holds hlt
  have hwhole := mul_widthMult_eq_iff count aw
  have hsize := mt (blockSize_eq_zero_iff aw).mp hne
  obtain ⟨hend, -⟩ := hwindow.bound.2 hsize
  have hv := setWidth_toNat a (by omega)
  have hback := written_accepts_read_iff buf hsized hlt hholds
  rw [hbytes, hv] at hback
  constructor
  · intro hcontract
    obtain ⟨bus', hwrite, -, -, hread⟩ := hcontract.taken htakes
    by_cases haw : count * widthMult aw = count
    · rw [blockWrite_accepted csr status buf hcovers hlt haccepts haw] at hwrite
      cases hwrite
      refine ⟨(hwhole.mp haw).resolve_left hne, ?_⟩
      by_contra hunreadable
      obtain ⟨out, after, hback', -⟩ := hread buf
      obtain ⟨state, hrefused⟩ :=
        blockRead_refused .ready csr .ok buf hcovers (mt hback.mp hunreadable)
      rw [hback', if_neg hne] at hrefused
      injection hrefused with hrefused
      injection hrefused with hzero
      exact hne hzero
    · rw [blockWrite_miscounted csr status buf hcovers hlt haccepts haw] at hwrite
      injection hwrite with hwrite
      injection hwrite with hzero
      exact absurd hzero.symm hne
  · rintro ⟨haw, hreadable⟩
    have hwrite := blockWrite_accepted csr status buf hcovers hlt haccepts (hwhole.mpr (Or.inr haw))
    obtain ⟨ram', status', single, helements, helement⟩ := busWriteElements_eq .ready csr status buf
      hwindow hsized htakes (Nat.le_refl _)
    have hblock := Mmu.written_writtenTo buf hlt hholds.1
    rw [hbytes, hv] at hblock
    refine ⟨fun _ => ⟨_, hwrite, rfl, ⟨_, helements, ?_, ?_⟩, ?_⟩, fun hnot => absurd htakes hnot⟩
    · exact hblock.data.trans helement.data.symm
    · exact hblock.perm.trans helement.perm.symm
    · intro dst
      refine ⟨_, _, blockRead_accepted .ready csr .ok dst hcovers (hback.mpr hreadable), ?_⟩
      intro i hi
      have hholding := Mmu.written_holding buf hlt hholds
      have hbyte := hholding.data i (by omega)
      have hsame : (mmu.written buf (a.setWidth 32) (count * widthMult aw)).Holds (a.setWidth 32)
          (count * widthMult aw).toNat := hholds
      rw [hsame.dataAt_eq] at hbyte
      rw [Span.copy_of_mem (Nat.zero_le i) (by omega)]
      exact hbyte

theorem blockContract_refused (hwindow : InWindow a (blockSize count aw))
    (hsized : mmu.size.toNat < 2 ^ 63) (hne : count ≠ 0) (htakes : ¬ mmu.TakesBlock a count aw) :
    (emulatorBus .ready csr false status mmu).BlockContract a buf count aw := by
  have hbytes := hwindow.bytes_toNat
  have hsmall := hwindow.bound.1
  have hlt : (count * widthMult aw).toNat < 2 ^ 63 := by omega
  obtain ⟨state, hwrite⟩ := blockWrite_refused csr status buf (hwindow.covers hne) hlt
    (mt (hwindow.accepts_iff hsized hne).mp htakes)
  rw [if_neg hne] at hwrite
  refine ⟨fun h => absurd h htakes, fun _ => ⟨_, hwrite, ?_, rfl, rfl⟩⟩
  intro hok
  cases hok

/-- Which blocks meet the contract, for every state of the emulator's bus. -/
theorem blockContract_iff (ram csr : DeviceState) (mutex : Bool) (status : BusStatus) {mmu : Mmu}
    (hsized : mmu.size.toNat < 2 ^ 63) {a count : Size} (buf : Nat → BitVec 8) {aw : Width}
    (hwindow : InWindow a (blockSize count aw)) :
    (emulatorBus ram csr mutex status mmu).BlockContract a buf count aw ↔
      BlockCounted mutex ram mmu a count aw := by
  constructor
  · intro hcontract
    obtain ⟨x, hx⟩ := hcontract.returns
    obtain ⟨rfl, hready, -⟩ := blockWrite_returns hx
    have hcovers := hcontract.covers hwindow
    obtain rfl := hready hcovers
    refine ⟨rfl, rfl, ?_⟩
    intro htakes
    by_cases hzero : count = 0
    · refine ⟨Or.inl hzero, hcovers, ?_⟩
      intro i hi
      rw [(blockSize_eq_zero_iff aw).mpr hzero] at hi
      exact absurd hi (Nat.not_lt_zero i)
    · obtain ⟨haw, hreadable⟩ := (blockContract_taken_iff hwindow hsized hzero htakes).mp hcontract
      exact ⟨Or.inr haw, hcovers, hreadable⟩
  · rintro ⟨rfl, rfl, hcounted⟩
    by_cases htakes : mmu.TakesBlock a count aw
    · obtain ⟨hwhole, hcovers, hreadable⟩ := hcounted htakes
      by_cases hzero : count = 0
      · rw [hzero]
        exact blockContract_empty hcovers
      · exact (blockContract_taken_iff hwindow hsized hzero htakes).mpr
          ⟨hwhole.resolve_left hzero, hreadable⟩
    · have hne : count ≠ 0 := fun hzero => htakes (hzero ▸ takesBlock_empty)
      exact blockContract_refused hwindow hsized hne htakes

/-- Two bytes of a memory that may be written and not yet read. -/
theorem byteBlock_contract :
    (emulatorBus .ready .ready false .ok rawMmu).BlockContract 0x10000 (fun _ => 7) 2 .byte := by
  have hwindow : InWindow 0x10000 (blockSize 2 .byte) := by
    intro i hi
    have hstart : (0x10000 : Size).toNat = 0x10000 := rfl
    have hsize : blockSize 2 .byte = 2 := rfl
    omega
  have hraw : (mpermWrite ||| mpermRaw) &&& mpermRaw = mpermRaw := by decide
  have hcounted : BlockCounted false .ready rawMmu 0x10000 2 .byte :=
    ⟨rfl, rfl, fun _ => ⟨Or.inr rfl, by decide, fun _ _ => Or.inr hraw⟩⟩
  exact (blockContract_iff .ready .ready false .ok (by decide) _ hwindow).mpr hcounted

/-- One word of the same memory: it is written, and reported as a failure. -/
theorem wordBlock_miscounted :
    rawMmu.TakesBlock 0x10000 1 .word ∧
    (∃ bus', busWriteMultiple (mainBus rawMmu) 0x10000 (fun _ => 7) 1 .word = .ok (0, bus') ∧
      bus'.status = .deviceFailure ∧ bus'.mmu.dataAt 0x10000 = 7) ∧
    ¬ (mainBus rawMmu).BlockContract 0x10000 (fun _ => 7) 1 .word := by
  have htakes : rawMmu.TakesBlock 0x10000 1 .word := by
    intro i hi
    have hsize : blockSize 1 .word = 4 := rfl
    have hstart : (0x10000 : Size).toNat = 0x10000 := rfl
    have hbase : rawMmu.base.toNat = 0x10000 := rfl
    have hlength : rawMmu.size.toNat = 0x1000 := rfl
    refine ⟨by omega, by omega, ?_⟩
    show Perm.Writable (mpermWrite ||| mpermRaw)
    decide
  refine ⟨htakes, ⟨_, rfl, rfl, rfl⟩, ?_⟩
  intro hcontract
  obtain ⟨bus', hwrite, -⟩ := hcontract.taken htakes
  cases hwrite

end Contract

end CRiscV
