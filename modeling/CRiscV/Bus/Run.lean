/-
Sequences of bus calls, and the mutex that each call takes and gives back.
-/
import Mathlib.Data.Int.ModEq
import CRiscV.Bus.Agreement
import CRiscV.Mmu.Run

namespace CRiscV

open Transition (Run Returns returns_ok returns_error returns_any returns_ite returns_bind)

/-- The five operations of the bus. -/
inductive BusCall where
  | readSingle (residue : BitVec 8) (offs : Size) (aw : Width)
  | writeSingle (offs : Size) (value : Word) (aw : Width)
  | readMultiple (offs : Size) (dst : Nat → BitVec 8) (count : Size) (aw : Width)
  | writeMultiple (offs : Size) (src : Nat → BitVec 8) (count : Size) (aw : Width)
  | readString (residue : Nat → BitVec 8) (offs : Size)

/-- What they return. -/
inductive BusAnswer where
  | value (r : Word)
  | done
  | block (n : Size) (buf : Nat → BitVec 8)
  | count (n : Size)
  | bytes (dst : List (BitVec 8))

def busCall (bus : Bus) : BusCall → Except Abort (BusAnswer × Bus)
  | .readSingle residue offs aw => do
      let (r, bus) ← busReadSingle residue bus offs aw
      return (.value r, bus)
  | .writeSingle offs value aw => do
      let bus ← busWriteSingle bus offs value aw
      return (.done, bus)
  | .readMultiple offs dst count aw => do
      let (n, buf, bus) ← busReadMultiple bus offs dst count aw
      return (.block n buf, bus)
  | .writeMultiple offs src count aw => do
      let (n, bus) ← busWriteMultiple bus offs src count aw
      return (.count n, bus)
  | .readString residue offs => do
      let (dst, bus) ← busReadString residue bus offs
      return (.bytes dst, bus)

/-- A call that returns, with its answer. -/
def BusStep (bus : Bus) (l : BusCall × BusAnswer) (bus' : Bus) : Prop :=
  busCall bus l.1 = .ok (l.2, bus')

section Calls

variable {bus bus' : Bus} {offs : Size} {aw : Width}

/-! ## The calls keep the emulator's bus -/

theorem busCall_isMain (hmain : bus.IsMain) {call : BusCall} {answer : BusAnswer}
    (h : busCall bus call = .ok (answer, bus')) : bus'.IsMain := by
  cases call with
  | readSingle residue offs aw =>
      obtain ⟨x, hx, h⟩ := Transition.exists_of_bind_ok h
      obtain ⟨y, -, hxy⟩ := busReadSingle_agrees hmain.agrees residue offs aw x hx
      cases h
      exact hxy.agrees.isMain
  | writeSingle offs value aw =>
      obtain ⟨x, hx, h⟩ := Transition.exists_of_bind_ok h
      obtain ⟨y, -, hxy⟩ := busWriteSingle_agrees hmain.agrees offs value aw x hx
      cases h
      exact hxy.2.isMain
  | readMultiple offs dst count aw =>
      obtain ⟨x, hx, h⟩ := Transition.exists_of_bind_ok h
      obtain ⟨y, -, hxy⟩ := busReadMultiple_agrees hmain.agrees offs dst count aw x hx
      cases h
      exact hxy.2.agrees.isMain
  | writeMultiple offs src count aw =>
      obtain ⟨x, hx, h⟩ := Transition.exists_of_bind_ok h
      obtain ⟨y, -, hxy⟩ := busWriteMultiple_agrees hmain.agrees offs src count aw x hx
      cases h
      exact hxy.agrees.isMain
  | readString residue offs =>
      rw [busCall] at h
      obtain ⟨x, hx, h⟩ := Transition.exists_of_bind_ok h
      obtain ⟨y, -, hxy⟩ := busReadString_agrees residue offs hmain.agrees x hx
      cases h
      exact hxy.agrees.isMain

/-! ## A locked bus -/

theorem busReadStringLoop_locked {residue : Nat → BitVec 8} (hlock : bus.mutex = true)
    (fuel i : Nat) : busReadStringLoop residue offs (fuel + 1) i bus = .error .deadlock := by
  rw [busReadStringLoop, busReadSingle_locked hlock]
  rfl

theorem busReadString_locked {residue : Nat → BitVec 8} (hlock : bus.mutex = true) :
    busReadString residue bus offs = .error .deadlock :=
  busReadStringLoop_locked hlock (2 ^ 32) 0

/-- On a locked bus no call returns. -/
theorem unlocked_of_busCall {call : BusCall} {answer : BusAnswer}
    (h : busCall bus call = .ok (answer, bus')) : bus.mutex = false := by
  cases hlock : bus.mutex with
  | false => rfl
  | true =>
      cases call with
      | readSingle residue offs aw =>
          rw [busCall, busReadSingle_locked hlock] at h
          cases h
      | writeSingle offs value aw =>
          rw [busCall, busWriteSingle_locked hlock] at h
          cases h
      | readMultiple offs dst count aw =>
          rw [busCall, busReadMultiple_locked hlock] at h
          cases h
      | writeMultiple offs src count aw =>
          rw [busCall, busWriteMultiple_locked hlock] at h
          cases h
      | readString residue offs =>
          rw [busCall, busReadString_locked hlock] at h
          cases h

/-! ## The calls that always release the mutex -/

theorem busReadSingle_unlocks {residue : BitVec 8} {r : Word}
    (h : busReadSingle residue bus offs aw = .ok (r, bus')) : bus'.mutex = false :=
  (busReadSingle_frame h).unlocked

theorem busWriteSingle_unlocks {value : Word} (h : busWriteSingle bus offs value aw = .ok bus') :
    bus'.mutex = false := by
  obtain ⟨locked, hlock, -⟩ := Transition.exists_of_bind_ok h
  obtain ⟨hfree, -⟩ := busLock_eq_ok hlock
  rcases bus.routes_or_unmapped offs with ⟨i, dev, hroute⟩ | hnone
  · obtain ⟨-, dev', mmu', -, rfl⟩ := served_of_busWriteSingle hfree hroute h
    rfl
  · rw [busWriteSingle_unmapped hfree hnone] at h
    cases h
    rfl

theorem busReadStringLoop_unlocks {residue : Nat → BitVec 8} {fuel i : Nat}
    {dst : List (BitVec 8)} (hfree : bus.mutex = false)
    (h : busReadStringLoop residue offs fuel i bus = .ok (dst, bus')) : bus'.mutex = false := by
  induction fuel generalizing i bus dst with
  | zero =>
      cases h
      exact hfree
  | succ fuel ih =>
      obtain ⟨⟨r, b⟩, hread, h⟩ := Transition.exists_of_bind_ok h
      have hb := busReadSingle_unlocks hread
      simp only at h
      split_ifs at h
      · obtain ⟨x, hrest, h⟩ := Transition.exists_of_bind_ok h
        cases h
        exact ih hb hrest
      · cases h
        exact hb

/-! ## A block write -/

/-- A write that returns has moved everything, with the MMU left in the state `ok`,
or nothing, with the MMU left in another. -/
theorem mmuWriteFrom_cases {mmu mmu' : Mmu} {src : Nat → BitVec 8} {vaddr : Vaddr} {n count : Size}
    (h : mmuWriteFrom mmu src vaddr n = .ok (count, mmu')) :
    mmu.Accepts vaddr n mpermWrite ∧ count = n ∧ mmu' = mmu.written src vaddr n ∨
      ¬ mmu.Accepts vaddr n mpermWrite ∧ count = 0 ∧ mmu'.state ≠ .ok := by
  unfold mmuWriteFrom at h
  unfold Mmu.Accepts
  cases hout : mmu.outside vaddr n with
  | true =>
      rw [hout, if_pos rfl] at h
      cases h
      exact Or.inr ⟨fun haccepts => Bool.false_ne_true haccepts.1.symm, rfl, nofun⟩
  | false =>
      rw [hout, if_neg Bool.false_ne_true] at h
      split_ifs at h with hbeyond hcheck
      · cases h
        rw [Bool.not_eq_true'] at hcheck
        rw [hcheck]
        exact Or.inr ⟨fun haccepts => Bool.false_ne_true haccepts.2, rfl, nofun⟩
      · cases h
        rw [Bool.not_eq_true', Bool.not_eq_false] at hcheck
        exact Or.inl ⟨⟨rfl, hcheck⟩, rfl, rfl⟩

/-- RAM writes a whole block, and returns the number of bytes, or nothing. -/
theorem writeRam_cases {ram dev : Device} {mmu mmu' : Mmu} {a : Word} {buf : Nat → BitVec 8}
    {count ret : Size} (h : writeRam ram mmu a buf count aw = .ok (ret, dev, mmu')) :
    mmu.Accepts a (count * widthMult aw) mpermWrite ∧ ret = count * widthMult aw ∨
      ¬ mmu.Accepts a (count * widthMult aw) mpermWrite ∧ ret = 0 := by
  obtain ⟨⟨n, m⟩, hwrite, h⟩ := Transition.exists_of_bind_ok h
  simp only at h
  rcases mmuWriteFrom_cases hwrite with ⟨haccepts, hn, hm⟩ | ⟨hrefused, hn, hm⟩
  · rw [hm] at h
    cases h
    exact Or.inl ⟨haccepts, hn⟩
  · rw [if_neg hm] at h
    cases h
    exact Or.inr ⟨hrefused, rfl⟩

theorem mul_succ_mod_eq_iff {n m k : Nat} (h : n < m) (hk : Nat.Coprime m k) :
    n * (k + 1) % m = n ↔ n = 0 := by
  constructor
  · intro hmod
    have hcongr : n ≡ n * (k + 1) [MOD m] := by
      unfold Nat.ModEq
      rw [hmod, Nat.mod_eq_of_lt h]
    have hdvd : m ∣ n * (k + 1) - n :=
      (Nat.modEq_iff_dvd' (Nat.le_mul_of_pos_right n (Nat.succ_pos k))).mp hcongr
    rw [Nat.mul_succ, Nat.add_sub_cancel] at hdvd
    exact Nat.eq_zero_of_dvd_of_lt (hk.dvd_of_dvd_mul_right hdvd) h
  · intro hzero
    rw [hzero, Nat.zero_mul, Nat.zero_mod]

/-- The number of bytes of a block is its count for bytes, and for an empty block. -/
theorem mul_widthMult_eq_iff (count : Size) (aw : Width) :
    count * widthMult aw = count ↔ count = 0 ∨ aw = .byte := by
  have hnat : ∀ w : Size, count * w = count ↔ count.toNat * w.toNat % 2 ^ 64 = count.toNat := by
    intro w
    rw [← BitVec.toNat_inj, BitVec.toNat_mul]
  have hzero : count.toNat = 0 ↔ count = 0 :=
    ⟨fun h => BitVec.eq_of_toNat_eq h, fun h => congrArg BitVec.toNat h⟩
  cases aw with
  | byte => exact ⟨fun _ => Or.inr rfl, fun _ => BitVec.mul_one count⟩
  | halfword =>
      have htwo : (widthMult .halfword).toNat = 1 + 1 := rfl
      rw [hnat, htwo, mul_succ_mod_eq_iff count.isLt (Nat.coprime_one_right _), hzero]
      exact ⟨Or.inl, fun h => h.resolve_right nofun⟩
  | word =>
      have hfour : (widthMult .word).toNat = 3 + 1 := rfl
      rw [hnat, hfour, mul_succ_mod_eq_iff count.isLt (by decide), hzero]
      exact ⟨Or.inl, fun h => h.resolve_right nofun⟩

/-! ## What no call changes -/

/-- The devices of two states of a bus are the same but for their own storage and state, and
so is the memory but for its contents. -/
def Bus.SameFrame (bus bus' : Bus) : Prop :=
  bus'.wiring = bus.wiring ∧ bus.mmu.SameLayout bus'.mmu

theorem Bus.SameFrame.refl (bus : Bus) : bus.SameFrame bus := ⟨rfl, .refl bus.mmu⟩

theorem Bus.SameFrame.trans {bus bus' bus'' : Bus} (h : bus.SameFrame bus')
    (h' : bus'.SameFrame bus'') : bus.SameFrame bus'' := ⟨h'.1.trans h.1, h.2.trans h'.2⟩

theorem Mmu.SameMemory.layout {mmu mmu' : Mmu} (h : mmu.SameMemory mmu') : mmu.SameLayout mmu' := by
  obtain ⟨state, rfl⟩ := h
  exact ⟨mmu.data, mmu.perm, mmu.dirty, state, rfl⟩

theorem Bus.AfterRead.frame {bus bus' : Bus} (h : bus.AfterRead bus') : bus.SameFrame bus' :=
  ⟨h.wiring, h.memory.layout⟩

/-- A handler leaves a device wired as it was, and the memory laid out as it was. -/
def Device.SameFrame (dev : Device) (mmu : Mmu) (dev' : Device) (mmu' : Mmu) : Prop :=
  dev'.wiring = dev.wiring ∧ mmu.SameLayout mmu'

theorem writeRam_frame (ram : Device) (mmu : Mmu) (a : Word) (buf : Nat → BitVec 8) (count : Size)
    (aw : Width) :
    Returns (fun x => ram.SameFrame mmu x.2.1 x.2.2) (writeRam ram mmu a buf count aw) := by
  intro x hx
  obtain ⟨⟨n, m⟩, hwrite, hx⟩ := Transition.exists_of_bind_ok hx
  have hlayout := mmuWriteFrom_layout hwrite
  simp only at hx
  split_ifs at hx
  · cases hx
    exact ⟨rfl, hlayout⟩
  · cases hx
    exact ⟨rfl, hlayout⟩

theorem writeRamSingle_frame (ram : Device) (mmu : Mmu) (a value : Word) (aw : Width) :
    Returns (fun x => ram.SameFrame mmu x.1 x.2) (writeRamSingle ram mmu a value aw) := by
  unfold writeRamSingle
  cases aw with
  | byte | halfword | word => exact returns_bind (writeRam_frame _ _ _ _ _ _) fun _ h => returns_ok h

theorem Device.writeSingle_frame (dev : Device) (mmu : Mmu) (a value : Word) (aw : Width) :
    Returns (fun x => dev.SameFrame mmu x.1 x.2) (dev.writeSingle mmu a value aw) := by
  unfold Device.writeSingle
  split
  · exact writeRamSingle_frame dev mmu a value aw
  · exact returns_ok ⟨rfl, .refl mmu⟩
  · split
    · exact returns_error _
    · exact returns_ok ⟨rfl, .refl mmu⟩

theorem Device.write_frame (dev : Device) (mmu : Mmu) (a : Word) (src : Nat → BitVec 8)
    (count : Size) (aw : Width) :
    Returns (fun x => dev.SameFrame mmu x.2.1 x.2.2) (dev.write mmu a src count aw) := by
  unfold Device.write
  split
  · exact writeRam_frame dev mmu a src count aw
  · exact returns_error _
  · split
    · exact returns_error _
    · exact returns_ok ⟨rfl, .refl mmu⟩

theorem busWriteSingle_frame {value : Word} (h : busWriteSingle bus offs value aw = .ok bus') :
    bus.SameFrame bus' := by
  obtain ⟨locked, hlock, -⟩ := Transition.exists_of_bind_ok h
  obtain ⟨hfree, -⟩ := busLock_eq_ok hlock
  rcases bus.routes_or_unmapped offs with ⟨i, dev, hroute⟩ | hnone
  · obtain ⟨-, dev', mmu', hdev, rfl⟩ := served_of_busWriteSingle hfree hroute h
    obtain ⟨hwiring, hlayout⟩ := dev.writeSingle_frame _ _ _ _ _ hdev
    exact ⟨Bus.served_wiring hroute hwiring mmu', hlayout⟩
  · rw [busWriteSingle_unmapped hfree hnone] at h
    cases h
    exact .refl bus

theorem busWriteMultiple_frame {src : Nat → BitVec 8} {count n : Size}
    (h : busWriteMultiple bus offs src count aw = .ok (n, bus')) : bus.SameFrame bus' := by
  obtain ⟨locked, hlock, -⟩ := Transition.exists_of_bind_ok h
  obtain ⟨hfree, -⟩ := busLock_eq_ok hlock
  rcases bus.routes_or_unmapped offs with ⟨i, dev, hroute⟩ | hnone
  · rw [busWriteMultiple_routed hfree hroute] at h
    split_ifs at h
    obtain ⟨⟨ret, dev', mmu'⟩, hdev, h⟩ := Transition.exists_of_bind_ok h
    obtain ⟨hwiring, hlayout⟩ := dev.write_frame _ _ _ _ _ _ hdev
    have hserved := Bus.served_wiring hroute hwiring mmu'
    split_ifs at h
    · cases h
      exact ⟨hserved, hlayout⟩
    · cases h
      exact ⟨hserved, hlayout⟩
  · rw [busWriteMultiple_unmapped hfree hnone] at h
    cases h
    exact .refl bus

theorem busReadStringLoop_frame {residue : Nat → BitVec 8} {fuel i : Nat} {dst : List (BitVec 8)}
    (h : busReadStringLoop residue offs fuel i bus = .ok (dst, bus')) : bus.SameFrame bus' := by
  induction fuel generalizing i bus dst with
  | zero =>
      cases h
      exact .refl _
  | succ fuel ih =>
      obtain ⟨⟨r, b⟩, hread, h⟩ := Transition.exists_of_bind_ok h
      have hturn := (busReadSingle_frame hread).frame
      simp only at h
      split_ifs at h
      · obtain ⟨x, hrest, h⟩ := Transition.exists_of_bind_ok h
        cases h
        exact hturn.trans (ih hrest)
      · cases h
        exact hturn

theorem busCall_frame {call : BusCall} {answer : BusAnswer}
    (h : busCall bus call = .ok (answer, bus')) : bus.SameFrame bus' := by
  cases call with
  | readSingle residue offs aw =>
      obtain ⟨x, hx, h⟩ := Transition.exists_of_bind_ok h
      cases h
      exact (busReadSingle_frame hx).frame
  | writeSingle offs value aw =>
      obtain ⟨x, hx, h⟩ := Transition.exists_of_bind_ok h
      cases h
      exact busWriteSingle_frame hx
  | readMultiple offs dst count aw =>
      obtain ⟨x, hx, h⟩ := Transition.exists_of_bind_ok h
      cases h
      exact (busReadMultiple_frame hx).frame
  | writeMultiple offs src count aw =>
      obtain ⟨x, hx, h⟩ := Transition.exists_of_bind_ok h
      cases h
      exact busWriteMultiple_frame hx
  | readString residue offs =>
      rw [busCall] at h
      obtain ⟨x, hx, h⟩ := Transition.exists_of_bind_ok h
      cases h
      exact busReadStringLoop_frame hx

end Calls

/-- RAM that may be written and not yet read. -/
def rawMmu : Mmu :=
  { size := 0x1000
    base := ramStart
    currVaddr := wide ramStart
    data := fun _ => 0
    perm := fun _ => mpermWrite ||| mpermRaw
    dirty := fun _ => false
    state := .ok
    dataBlock := 0x1000
    permBlock := 0x4000
    dirtyBlock := 65 }

/-- What `emulator_init` makes on a generous host. -/
def initialMmu : Mmu :=
  { size := wide ramSize
    base := ramStart
    currVaddr := wide ramStart
    data := Span.fill 0 (wide ramSize).toNat 0 generousHeap.data
    perm := Span.fill 0 (wide ramSize).toNat (mpermWrite ||| mpermRaw) generousHeap.perm
    dirty := Span.fill 0 (wide ramSize / dirtyPageSize + 1).toNat false generousHeap.dirty
    state := .ok
    dataBlock := wide ramSize
    permBlock := sizeofPerm * wide ramSize
    dirtyBlock := wide ramSize / dirtyPageSize + 1 }

theorem mmuInit_initial :
    mmuInit generousHeap ramStart (wide ramSize) = .ok (some initialMmu) := rfl

end CRiscV
