/-
The bus mutex over sequences of calls: it is released for as long as no block write
is cut short.
-/
import CRiscV.Bus.Run

namespace CRiscV

open Transition (Run Avoids avoids_ok avoids_error avoids_ite avoids_bind)

/-- A block write to RAM moves nothing, or bytes that the MMU accepts. -/
def BusCall.Releases (bus : Bus) : BusCall → Prop
  | .writeMultiple offs _ count aw =>
      (ramDevice .ready).covers offs = true →
        count = 0 ∨ aw = .byte ∧ bus.mmu.Accepts (offs.setWidth 32) count mpermWrite
  | .readSingle .. | .writeSingle .. | .readMultiple .. | .readString .. => True

/-- A call that returns and meets the condition. -/
def ReleasingStep (bus : Bus) (l : BusCall × BusAnswer) (bus' : Bus) : Prop :=
  BusStep bus l bus' ∧ l.1.Releases bus

section Calls

variable {bus bus' : Bus} {offs : Size} {aw : Width}

/-! ## Which calls release the mutex -/

/-- RAM moves the whole block under that condition. -/
theorem writeRam_whole_iff {ram dev : Device} {mmu mmu' : Mmu} {a : Word}
    {buf : Nat → BitVec 8} {count ret : Size}
    (h : writeRam ram mmu a buf count aw = .ok (ret, dev, mmu')) :
    ret = count ↔ count = 0 ∨ aw = .byte ∧ mmu.Accepts a count mpermWrite := by
  have hbyte : ∀ n : Size, n * widthMult .byte = n := fun n => BitVec.mul_one n
  rcases writeRam_cases h with ⟨haccepts, hret⟩ | ⟨hrefused, hret⟩
  · rw [hret, mul_widthMult_eq_iff]
    constructor
    · intro hwhole
      rcases hwhole with hzero | haw
      · exact Or.inl hzero
      · rw [haw, hbyte] at haccepts
        exact Or.inr ⟨haw, haccepts⟩
    · intro hwhole
      exact hwhole.imp id fun hboth => hboth.1
  · rw [hret]
    constructor
    · intro hzero
      exact Or.inl hzero.symm
    · intro hwhole
      rcases hwhole with hzero | ⟨haw, haccepts⟩
      · exact hzero.symm
      · rw [haw, hbyte] at hrefused
        exact absurd haccepts hrefused

theorem busWriteMultiple_unlocks_iff {src : Nat → BitVec 8} {count n : Size}
    (hmain : bus.IsMain) (h : busWriteMultiple bus offs src count aw = .ok (n, bus')) :
    bus'.mutex = false ↔ (BusCall.writeMultiple offs src count aw).Releases bus := by
  obtain ⟨ram, csr, mutex, status, mmu, rfl⟩ := hmain
  show _ ↔ ((ramDevice .ready).covers offs = true → _)
  cases mutex with
  | true =>
      rw [busWriteMultiple_locked rfl] at h
      cases h
  | false =>
      cases hcovers : (ramDevice .ready).covers offs with
      | true =>
          rw [busWriteMultiple_routed rfl (emulatorBus_ram hcovers),
            if_neg (fun hne => hne writable)] at h
          split_ifs at h with hready
          · obtain ⟨⟨ret, dev, mmu'⟩, hwrite, h⟩ := Transition.exists_of_bind_ok h
            have hwhole := writeRam_whole_iff hwrite
            simp only at h
            by_cases hret : ret ≠ count
            · rw [if_pos hret] at h
              cases h
              constructor
              · intro hfree
                cases hfree
              · intro hreleases
                exact absurd (hwhole.mpr (hreleases rfl)) hret
            · rw [if_neg hret] at h
              cases h
              rw [ne_eq, Decidable.not_not] at hret
              exact ⟨fun _ _ => hwhole.mp hret, fun _ => rfl⟩
      | false =>
          cases hcsr : (csrMmioDevice .ready).covers offs with
          | true =>
              rw [busWriteMultiple_routed rfl (emulatorBus_csr hcovers hcsr),
                if_neg (fun hne => hne writable)] at h
              split_ifs at h with hready
              cases h
          | false =>
              rw [busWriteMultiple_unmapped rfl (emulatorBus_unmapped hcovers hcsr)] at h
              cases h
              exact ⟨fun _ hram => absurd hram Bool.false_ne_true, fun _ => rfl⟩

theorem busStep_unlocks_iff {l : BusCall × BusAnswer} (hmain : bus.IsMain)
    (h : BusStep bus l bus') : bus'.mutex = false ↔ l.1.Releases bus := by
  have hfree := unlocked_of_busCall h
  obtain ⟨call, answer⟩ := l
  unfold BusStep at h
  cases call with
  | readSingle residue offs aw =>
      obtain ⟨x, hx, h⟩ := Transition.exists_of_bind_ok h
      cases h
      exact ⟨fun _ => trivial, fun _ => busReadSingle_unlocks hx⟩
  | writeSingle offs value aw =>
      obtain ⟨x, hx, h⟩ := Transition.exists_of_bind_ok h
      cases h
      exact ⟨fun _ => trivial, fun _ => busWriteSingle_unlocks hx⟩
  | readMultiple offs dst count aw =>
      obtain ⟨x, hx, h⟩ := Transition.exists_of_bind_ok h
      cases h
      exact ⟨fun _ => trivial, fun _ => (busReadMultiple_frame hx).unlocked⟩
  | writeMultiple offs src count aw =>
      obtain ⟨x, hx, h⟩ := Transition.exists_of_bind_ok h
      cases h
      exact busWriteMultiple_unlocks_iff hmain hx
  | readString residue offs =>
      rw [busCall] at h
      obtain ⟨x, hx, h⟩ := Transition.exists_of_bind_ok h
      cases h
      exact ⟨fun _ => trivial, fun _ => busReadStringLoop_unlocks hfree hx⟩

/-! ## Calls on a released bus do not block -/

theorem mmuWriteFrom_avoids (mmu : Mmu) (src : Nat → BitVec 8) (vaddr : Vaddr) (n : Size) :
    Avoids .deadlock (mmuWriteFrom mmu src vaddr n) := by
  refine avoids_ite (avoids_ok _) (avoids_ite (avoids_error (by decide)) ?_)
  exact avoids_ite (avoids_ok _) (avoids_ok _)

theorem writeRam_avoids (ram : Device) (mmu : Mmu) (a : Word) (buf : Nat → BitVec 8)
    (count : Size) (aw : Width) : Avoids .deadlock (writeRam ram mmu a buf count aw) :=
  avoids_bind (mmuWriteFrom_avoids _ _ _ _) fun _ _ => avoids_ite (avoids_ok _) (avoids_ok _)

theorem Device.readSingle_avoids (dev : Device) (residue : BitVec 8) (mmu : Mmu) (a : Word)
    (aw : Width) : Avoids .deadlock (dev.readSingle residue mmu a aw) := by
  unfold Device.readSingle
  split
  · exact avoids_ok _
  · exact avoids_ok _
  · split
    · exact avoids_error (by decide)
    · exact avoids_ok _

theorem Device.read_avoids (dev : Device) (mmu : Mmu) (a : Word) (dst : Nat → BitVec 8)
    (count : Size) (aw : Width) : Avoids .deadlock (dev.read mmu a dst count aw) := by
  unfold Device.read
  split
  · exact avoids_ok _
  · exact avoids_error (by decide)
  · split
    · exact avoids_error (by decide)
    · exact avoids_ok _

theorem Device.writeSingle_avoids (dev : Device) (mmu : Mmu) (a value : Word) (aw : Width) :
    Avoids .deadlock (dev.writeSingle mmu a value aw) := by
  unfold Device.writeSingle
  split
  · unfold writeRamSingle
    cases aw with
    | byte | halfword | word => exact avoids_bind (writeRam_avoids _ _ _ _ _ _) fun _ _ => avoids_ok _
  · exact avoids_ok _
  · split
    · exact avoids_error (by decide)
    · exact avoids_ok _

theorem Device.write_avoids (dev : Device) (mmu : Mmu) (a : Word) (src : Nat → BitVec 8)
    (count : Size) (aw : Width) : Avoids .deadlock (dev.write mmu a src count aw) := by
  unfold Device.write
  split
  · exact writeRam_avoids _ _ _ _ _ _
  · exact avoids_error (by decide)
  · split
    · exact avoids_error (by decide)
    · exact avoids_ok _

theorem busReadSingle_avoids (hfree : bus.mutex = false) (residue : BitVec 8) (offs : Size)
    (aw : Width) : Avoids .deadlock (busReadSingle residue bus offs aw) := by
  rcases bus.routes_or_unmapped offs with ⟨i, dev, hroute⟩ | hnone
  · rw [busReadSingle_routed hfree hroute]
    exact avoids_bind (dev.readSingle_avoids _ _ _ _) fun _ _ => avoids_ok _
  · rw [busReadSingle_unmapped hfree hnone]
    exact avoids_ok _

theorem busWriteSingle_avoids (hfree : bus.mutex = false) (offs : Size) (value : Word)
    (aw : Width) : Avoids .deadlock (busWriteSingle bus offs value aw) := by
  rcases bus.routes_or_unmapped offs with ⟨i, dev, hroute⟩ | hnone
  · by_cases hperm : dev.perm &&& mmioWrite = mmioWrite
    · rw [busWriteSingle_routed hfree hroute hperm]
      exact avoids_bind (dev.writeSingle_avoids _ _ _ _) fun _ _ => avoids_ok _
    · rw [busWriteSingle_readOnly hfree hroute hperm]
      exact avoids_error (by decide)
  · rw [busWriteSingle_unmapped hfree hnone]
    exact avoids_ok _

theorem busReadMultiple_avoids (hfree : bus.mutex = false) (offs : Size) (dst : Nat → BitVec 8)
    (count : Size) (aw : Width) : Avoids .deadlock (busReadMultiple bus offs dst count aw) := by
  rcases bus.routes_or_unmapped offs with ⟨i, dev, hroute⟩ | hnone
  · rw [busReadMultiple_routed hfree hroute]
    exact avoids_bind (dev.read_avoids _ _ _ _ _) fun _ _ => avoids_ite (avoids_ok _) (avoids_ok _)
  · rw [busReadMultiple_unmapped hfree hnone]
    exact avoids_ok _

theorem busWriteMultiple_avoids (hfree : bus.mutex = false) (offs : Size)
    (src : Nat → BitVec 8) (count : Size) (aw : Width) :
    Avoids .deadlock (busWriteMultiple bus offs src count aw) := by
  rcases bus.routes_or_unmapped offs with ⟨i, dev, hroute⟩ | hnone
  · rw [busWriteMultiple_routed hfree hroute]
    refine avoids_ite (avoids_error (by decide)) (avoids_ite (avoids_error (by decide)) ?_)
    exact avoids_bind (dev.write_avoids _ _ _ _ _) fun _ _ => avoids_ite (avoids_ok _) (avoids_ok _)
  · rw [busWriteMultiple_unmapped hfree hnone]
    exact avoids_ok _

/-- Every turn of the loop releases the mutex for the next one. -/
theorem busReadStringLoop_avoids (residue : Nat → BitVec 8) (offs : Size) (fuel i : Nat)
    {bus : Bus} (hfree : bus.mutex = false) :
    Avoids .deadlock (busReadStringLoop residue offs fuel i bus) := by
  induction fuel generalizing i bus with
  | zero => exact avoids_ok _
  | succ fuel ih =>
      refine avoids_bind (busReadSingle_avoids hfree _ _ _) fun x hx => ?_
      have hnext := busReadSingle_unlocks hx
      exact avoids_ite (avoids_bind (ih (i + 1) hnext) fun _ _ => avoids_ok _) (avoids_ok _)

theorem busCall_avoids (hfree : bus.mutex = false) (call : BusCall) :
    Avoids .deadlock (busCall bus call) := by
  cases call with
  | readSingle residue offs aw =>
      exact avoids_bind (busReadSingle_avoids hfree _ _ _) fun _ _ => avoids_ok _
  | writeSingle offs value aw =>
      exact avoids_bind (busWriteSingle_avoids hfree _ _ _) fun _ _ => avoids_ok _
  | readMultiple offs dst count aw =>
      exact avoids_bind (busReadMultiple_avoids hfree _ _ _ _) fun _ _ => avoids_ok _
  | writeMultiple offs src count aw =>
      exact avoids_bind (busWriteMultiple_avoids hfree _ _ _ _) fun _ _ => avoids_ok _
  | readString residue offs =>
      rw [busCall]
      exact avoids_bind (busReadStringLoop_avoids residue offs _ 0 hfree) fun _ _ => avoids_ok _

end Calls

/-! ## Runs -/

theorem released_of_releasing {bus bus' : Bus} {calls : List (BusCall × BusAnswer)}
    (hmain : bus.IsMain) (hfree : bus.mutex = false) (hrun : Run ReleasingStep bus calls bus') :
    bus'.IsMain ∧ bus'.mutex = false := by
  induction hrun with
  | nil => exact ⟨hmain, hfree⟩
  | snoc hrun hstep ih =>
      obtain ⟨hstep, hreleases⟩ := hstep
      exact ⟨busCall_isMain ih.1 hstep, (busStep_unlocks_iff ih.1 hstep).mpr hreleases⟩

/-- A call that returned has found the mutex free, so all calls before it released
it. -/
theorem releasing_of_released {bus bus' : Bus} {calls : List (BusCall × BusAnswer)}
    (hmain : bus.IsMain) (hrun : Run BusStep bus calls bus') :
    bus'.IsMain ∧ (bus'.mutex = false → Run ReleasingStep bus calls bus') := by
  induction hrun with
  | nil => exact ⟨hmain, fun _ => .nil⟩
  | snoc hrun hstep ih =>
      obtain ⟨hbus, hbefore⟩ := ih
      refine ⟨busCall_isMain hbus hstep, ?_⟩
      intro hreleased
      have hlast := (busStep_unlocks_iff hbus hstep).mp hreleased
      exact (hbefore (unlocked_of_busCall hstep)).snoc ⟨hstep, hlast⟩

/-- After every sequence of calls that returned, the mutex is released exactly when
each of them met the condition, and no call blocks then. -/
theorem busRun_released {bus bus' : Bus} {calls : List (BusCall × BusAnswer)}
    (hmain : bus.IsMain) (hfree : bus.mutex = false) (hrun : Run BusStep bus calls bus') :
    (bus'.mutex = false ↔ Run ReleasingStep bus calls bus') ∧
      (bus'.mutex = false → ∀ call, Avoids .deadlock (busCall bus' call)) := by
  refine ⟨⟨?_, ?_⟩, ?_⟩
  · intro hreleased
    exact (releasing_of_released hmain hrun).2 hreleased
  · intro hreleasing
    exact (released_of_releasing hmain hfree hreleasing).2
  · intro hreleased call
    exact busCall_avoids hreleased call

/-- A block of two bytes, written and then read back. -/
theorem writtenBlock_released : ∃ bus' : Bus,
    Run BusStep (mainBus rawMmu)
      [(.writeMultiple 0x10000 (fun _ => 7) 2 .byte, .count 2),
        (.readSingle 0 0x10001 .byte, .value 7)] bus' ∧
    bus'.mutex = false := by
  obtain ⟨bus₁, bus₂, hwrite, hread, hfree⟩ : ∃ bus₁ bus₂ : Bus,
      BusStep (mainBus rawMmu) (.writeMultiple 0x10000 (fun _ => 7) 2 .byte, .count 2) bus₁ ∧
      BusStep bus₁ (.readSingle 0 0x10001 .byte, .value 7) bus₂ ∧ bus₁.mutex = false :=
    ⟨_, _, rfl, rfl, rfl⟩
  have hmain : (mainBus rawMmu).IsMain := ⟨.ready, .ready, false, .ok, rawMmu, rfl⟩
  have hrun := (Run.single hwrite).snoc hread
  have hbytes : (BusCall.readSingle 0 0x10001 .byte).Releases bus₁ := trivial
  have hreleasing : Run ReleasingStep (mainBus rawMmu) _ bus₂ :=
    (((busRun_released hmain rfl (Run.single hwrite)).1.mp hfree).snoc ⟨hread, hbytes⟩)
  exact ⟨bus₂, hrun, (busRun_released hmain rfl hrun).1.mpr hreleasing⟩

/-- A byte behind the end of the MMU, in the window of RAM. -/
theorem refusedByte_locked : ∃ bus' : Bus,
    Run BusStep (mainBus rawMmu) [(.writeMultiple 0x20000 (fun _ => 7) 1 .byte, .count 0)] bus' ∧
    bus'.mutex = true ∧
    busCall bus' (.readSingle 0 0x10000 .word) = .error .deadlock := by
  obtain ⟨bus', hwrite, hlocked⟩ : ∃ bus' : Bus,
      BusStep (mainBus rawMmu) (.writeMultiple 0x20000 (fun _ => 7) 1 .byte, .count 0) bus' ∧
      bus'.mutex = true := ⟨_, rfl, rfl⟩
  refine ⟨bus', Run.single hwrite, hlocked, ?_⟩
  rw [busCall, busReadSingle_locked hlocked]
  rfl

end CRiscV
