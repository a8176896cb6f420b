/-
RAM behind the bus is a map from addresses to bytes.
-/
import CRiscV.Bus.Run

namespace CRiscV

open Transition (Run)

/-! ## The map -/

/-- A byte at every address. -/
abbrev ByteMap := Nat → BitVec 8

/-- What a call does on the map, and what it returns: words are little-endian. -/
def MapStep (m : ByteMap) (l : BusCall × BusAnswer) (m' : ByteMap) : Prop :=
  match l with
  | (.readSingle _ offs aw, .value r) =>
      m' = m ∧ r = Bytes.ofBytes 32 aw.size fun i => m (offs.toNat + i)
  | (.readMultiple offs dst count aw, .block n buf) =>
      m' = m ∧ n = count ∧
        buf = Span.copy 0 (count.toNat * aw.size) (fun i => m (offs.toNat + i)) dst
  | (.writeSingle offs value aw, .done) =>
      m' = Span.copy offs.toNat (offs.toNat + aw.size) (Bytes.byteAt value) m
  | (.writeMultiple offs src count .byte, .count n) =>
      n = count ∧ m' = Span.copy offs.toNat (offs.toNat + count.toNat) src m
  | _ => False

/-! ## The calls -/

/-- `n` bytes of RAM from the address on, each with a permission of the kind. -/
structure Bus.Grants (bus : Bus) (offs : Size) (n : Nat) (p : Perm → Prop) : Prop where
  routed : (ramDevice .ready).covers offs = true
  holds : bus.mmu.Holds (offs.setWidth 32) n
  perms : ∀ i < n, p (bus.mmu.permFrom (offs.setWidth 32) i)

/-- An access inside RAM that the permissions of its bytes allow. -/
def BusCall.Permitted (bus : Bus) : BusCall → Prop
  | .readSingle _ offs aw => bus.Grants offs aw.size Perm.Readable
  | .readMultiple offs _ count aw => bus.Grants offs (count.toNat * aw.size) Perm.Readable
  | .writeSingle offs _ aw => bus.Grants offs aw.size Perm.Writable
  | .writeMultiple offs _ count aw => aw = .byte ∧ bus.Grants offs count.toNat Perm.Writable
  | .readString .. => False

def PermittedStep (bus : Bus) (l : BusCall × BusAnswer) (bus' : Bus) : Prop :=
  BusStep bus l bus' ∧ l.1.Permitted bus

/-- The contents of the memory by address. -/
def Mmu.byteMap (mmu : Mmu) : ByteMap := fun a =>
  if mmu.base.toNat ≤ a then mmu.data (a - mmu.base.toNat) else 0

/-! ## One call -/

section Memory

variable {mmu : Mmu} {a : Vaddr}

theorem Mmu.byteFrom_byteMap (h : mmu.base.toNat ≤ a.toNat) (i : Nat) :
    mmu.byteFrom a i = mmu.byteMap (a.toNat + i) := by
  unfold Mmu.byteFrom Mmu.byteMap
  rw [if_pos (by omega), Mmu.offset_toNat h]
  congr 1
  omega

/-- An accepted write is a write to the map. -/
theorem Mmu.written_byteMap {src : Nat → BitVec 8} {n : Size} (h : mmu.base.toNat ≤ a.toNat) :
    (mmu.written src a n).byteMap =
      Span.copy a.toNat (a.toNat + n.toNat) src mmu.byteMap := by
  have hoffset := Mmu.offset_toNat h
  funext x
  show (if mmu.base.toNat ≤ x then
      Span.copy (mmu.offset a).toNat ((mmu.offset a).toNat + n.toNat) src mmu.data
        (x - mmu.base.toNat)
    else 0) = _
  by_cases hin : a.toNat ≤ x ∧ x < a.toNat + n.toNat
  · rw [if_pos (by omega), Span.copy_of_mem (by omega) (by omega),
      Span.copy_of_mem hin.1 hin.2, hoffset]
    congr 1
    omega
  · rw [Span.copy_of_not_mem (show x < a.toNat ∨ a.toNat + n.toNat ≤ x by omega)]
    unfold Mmu.byteMap
    by_cases hbase : mmu.base.toNat ≤ x
    · rw [if_pos hbase, if_pos hbase, Span.copy_of_not_mem (by omega)]
    · rw [if_neg hbase, if_neg hbase]

end Memory

section Calls

variable {csr : DeviceState} {status : BusStatus} {mmu : Mmu} {offs : Size}

/-- A granted range is one that the MMU accepts, at the same address. -/
theorem Bus.Grants.address {bus : Bus} {n : Nat} {p : Perm → Prop} (h : bus.Grants offs n p) :
    (offs.setWidth 32).toNat = offs.toNat := by
  have hlt := ramDevice_covers_lt h.routed
  rw [BitVec.toNat_setWidth, Nat.mod_eq_of_lt (by omega)]

theorem Mmu.Holds.length_le {a : Vaddr} {n : Nat} (h : mmu.Holds a n) : n ≤ mmu.size.toNat := by
  obtain ⟨hbase, hend⟩ := h
  omega

theorem Bus.Grants.accepts_read {bus : Bus} {n : Size} (hsized : bus.mmu.size.toNat < 2 ^ 63)
    (h : bus.Grants offs n.toNat Perm.Readable) :
    bus.mmu.Accepts (offs.setWidth 32) n mpermRead := by
  have hlength := h.holds.length_le
  exact (Mmu.accepts_read_iff hsized (by omega)).mpr ⟨h.holds, h.perms⟩

theorem Bus.Grants.accepts_write {bus : Bus} {n : Size} (hsized : bus.mmu.size.toNat < 2 ^ 63)
    (h : bus.Grants offs n.toNat Perm.Writable) :
    bus.mmu.Accepts (offs.setWidth 32) n mpermWrite := by
  have hlength := h.holds.length_le
  exact (Mmu.accepts_write_iff hsized (by omega)).mpr ⟨h.holds, h.perms⟩

/-- The size of a block in bytes does not wrap when RAM holds it. -/
theorem Bus.Grants.block {bus : Bus} {count : Size} {aw : Width} {p : Perm → Prop}
    (h : bus.Grants offs (count.toNat * aw.size) p) :
    (count * widthMult aw).toNat = count.toNat * aw.size := by
  have hlength := h.holds.length_le
  have hsize := bus.mmu.size.isLt
  rw [BitVec.toNat_mul, widthMult_toNat, Nat.mod_eq_of_lt (by omega)]

/-- A permitted call returns, with the answer of the map, and RAM is the map that the
call leaves. -/
theorem permitted_returns (hsized : mmu.size.toNat < 2 ^ 63) {call : BusCall}
    (h : call.Permitted (emulatorBus .ready csr false status mmu)) :
    ∃ answer mmu', busCall (emulatorBus .ready csr false status mmu) call =
        .ok (answer, emulatorBus .ready csr false .ok mmu') ∧
      MapStep mmu.byteMap (call, answer) mmu'.byteMap ∧ mmu'.size = mmu.size := by
  cases call with
  | readSingle residue offs aw =>
      have hgrants : (emulatorBus .ready csr false status mmu).Grants offs aw.bytes.toNat
          Perm.Readable := by
        rw [aw.bytes_toNat]
        exact h
      have haddr := hgrants.address
      have hbase : mmu.base.toNat ≤ (offs.setWidth 32).toNat := hgrants.holds.1
      have haccepts : mmu.Accepts _ _ _ := hgrants.accepts_read hsized
      refine ⟨.value (Bytes.ofBytes 32 aw.size (mmu.byteFrom (offs.setWidth 32))),
        { mmu with state := .ok }, ?_, ⟨rfl, ?_⟩, rfl⟩
      · rw [busCall, busReadSingle_routed rfl (emulatorBus_ram hgrants.routed)]
        show (Except.ok (readRamSingle residue (ramDevice .ready) mmu _ aw) >>= _) >>= _ = _
        rw [readRamSingle_accepted haccepts]
        rfl
      · apply Bytes.ofBytes_congr
        intro i hi
        rw [Mmu.byteFrom_byteMap hbase, haddr]
  | readMultiple offs dst count aw =>
      have hbytes := Bus.Grants.block h
      have hgrants : (emulatorBus .ready csr false status mmu).Grants offs
          (count * widthMult aw).toNat Perm.Readable := by
        rw [hbytes]
        exact h
      have haddr := hgrants.address
      have hbase : mmu.base.toNat ≤ (offs.setWidth 32).toNat := hgrants.holds.1
      have haccepts : mmu.Accepts _ _ _ := hgrants.accepts_read hsized
      refine ⟨.block count (Span.copy 0 (count * widthMult aw).toNat
        (mmu.byteFrom (offs.setWidth 32)) dst), { mmu with state := .ok }, ?_, ⟨rfl, rfl, ?_⟩, rfl⟩
      · rw [busCall, busReadMultiple_routed rfl (emulatorBus_ram hgrants.routed)]
        show (Except.ok (readRam (ramDevice .ready) mmu _ dst count aw) >>= _) >>= _ = _
        rw [readRam_block dst haccepts, Transition.ok_bind, if_neg (fun hne => hne rfl)]
        rfl
      · rw [hbytes]
        apply Span.copy_congr
        intro i hi
        rw [Mmu.byteFrom_byteMap hbase, haddr]
  | writeSingle offs value aw =>
      have hgrants : (emulatorBus .ready csr false status mmu).Grants offs aw.bytes.toNat
          Perm.Writable := by
        rw [aw.bytes_toNat]
        exact h
      have haddr := hgrants.address
      have hbase : mmu.base.toNat ≤ (offs.setWidth 32).toNat := hgrants.holds.1
      have haccepts : mmu.Accepts _ _ _ := hgrants.accepts_write hsized
      refine ⟨.done, mmu.written (Bytes.byteAt value) (offs.setWidth 32) aw.bytes, ?_, ?_, rfl⟩
      · rw [busCall, busWriteSingle_routed rfl (emulatorBus_ram hgrants.routed) writable]
        show (writeRamSingle (ramDevice .ready) mmu _ value aw >>= _) >>= _ = _
        rw [writeRamSingle_accepted haccepts]
        rfl
      · show _ = _
        rw [Mmu.written_byteMap hbase, haddr, aw.bytes_toNat]
  | writeMultiple offs src count aw =>
      obtain ⟨rfl, hgrants⟩ := h
      have haddr := hgrants.address
      have hbase : mmu.base.toNat ≤ (offs.setWidth 32).toNat := hgrants.holds.1
      have haccepts : mmu.Accepts _ _ _ := hgrants.accepts_write hsized
      have hlength : count.toNat ≤ mmu.size.toNat := hgrants.holds.length_le
      have hbytes : count * widthMult .byte = count := BitVec.mul_one count
      have hwrite : writeRam (ramDevice .ready) mmu (offs.setWidth 32) src count .byte =
          .ok (count, ramDevice .ready, mmu.written src (offs.setWidth 32) count) := by
        unfold writeRam
        rw [hbytes, mmuWriteFrom_accepted (by omega) haccepts]
        rfl
      refine ⟨.count count, mmu.written src (offs.setWidth 32) count, ?_, ⟨rfl, ?_⟩, rfl⟩
      · rw [busCall, busWriteMultiple_routed rfl (emulatorBus_ram hgrants.routed),
          if_neg (fun hne => hne writable), if_neg (fun hne => hne rfl)]
        show (writeRam (ramDevice .ready) mmu _ src count .byte >>= _) >>= _ = _
        rw [hwrite, Transition.ok_bind, if_neg (fun hne => hne rfl)]
        rfl
      · rw [Mmu.written_byteMap hbase, haddr]
  | readString residue offs => exact h.elim

end Calls

/-! ## Runs -/

/-- Every sequence of permitted accesses is one of the map, with the same answers, and
the next permitted access returns. -/
theorem ram_byteMap {csr : DeviceState} {status : BusStatus} {mmu : Mmu} {bus : Bus}
    {calls : List (BusCall × BusAnswer)} (hsized : mmu.size.toNat < 2 ^ 63)
    (hrun : Run PermittedStep (emulatorBus .ready csr false status mmu) calls bus) :
    Run MapStep mmu.byteMap calls bus.mmu.byteMap ∧
      ∀ call, call.Permitted bus → ∃ answer bus', BusStep bus (call, answer) bus' := by
  have hreached : Run MapStep mmu.byteMap calls bus.mmu.byteMap ∧
      ∃ status' mmu', bus = emulatorBus .ready csr false status' mmu' ∧
        mmu'.size.toNat < 2 ^ 63 := by
    induction hrun with
    | nil => exact ⟨.nil, status, mmu, rfl, hsized⟩
    | @snoc calls bus bus' l hrun hstep ih =>
        obtain ⟨hmap, status', mmu', rfl, hsized'⟩ := ih
        obtain ⟨call, answer⟩ := l
        obtain ⟨hstep, hpermitted⟩ := hstep
        obtain ⟨answer', mmu'', hcall, hmap', hsize⟩ := permitted_returns hsized' hpermitted
        have hsame : Except.ok (answer', emulatorBus .ready csr false .ok mmu'') =
            (Except.ok (answer, bus') : Except Abort (BusAnswer × Bus)) := hcall.symm.trans hstep
        cases hsame
        refine ⟨hmap.snoc hmap', .ok, mmu'', rfl, ?_⟩
        rwa [hsize]
  refine ⟨hreached.1, ?_⟩
  obtain ⟨-, status', mmu', rfl, hsized'⟩ := hreached
  intro call hpermitted
  obtain ⟨answer, mmu'', hcall, -, -⟩ := permitted_returns hsized' hpermitted
  exact ⟨answer, _, hcall⟩

/-- A word, and the halfword in the middle of it. -/
theorem writtenWord_byteMap : ∃ bus : Bus,
    Run PermittedStep (mainBus rawMmu)
      [(.writeSingle 0x10000 0x11223344 .word, .done),
        (.readSingle 0 0x10001 .halfword, .value 0x2233)] bus ∧
    Run MapStep rawMmu.byteMap
      [(.writeSingle 0x10000 0x11223344 .word, .done),
        (.readSingle 0 0x10001 .halfword, .value 0x2233)] bus.mmu.byteMap := by
  obtain ⟨bus₁, bus₂, hwrite, hread⟩ : ∃ bus₁ bus₂ : Bus,
      PermittedStep (mainBus rawMmu) (.writeSingle 0x10000 0x11223344 .word, .done) bus₁ ∧
      PermittedStep bus₁ (.readSingle 0 0x10001 .halfword, .value 0x2233) bus₂ := by
    refine ⟨_, _, ⟨rfl, ⟨rfl, ?_, ?_⟩⟩, ⟨rfl, ⟨rfl, ?_, ?_⟩⟩⟩
    · exact ⟨by decide, by decide⟩
    · decide
    · exact ⟨by decide, by decide⟩
    · decide
  have hrun := (Run.single hwrite).snoc hread
  exact ⟨bus₂, hrun, (ram_byteMap (by decide) hrun).1⟩

end CRiscV
