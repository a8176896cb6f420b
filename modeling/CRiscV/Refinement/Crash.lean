/-
Which calls on the emulator's bus return, after any sequence of calls that did.

RAM remembers one thing of the accesses that it served: whether the last one was
refused.  Block writes require RAM to be ready, and block accesses require a device with
the handlers for them.
-/
import CRiscV.Refinement.Blocks
import CRiscV.Refinement.Lock
import CRiscV.Mmu.Run
import CRiscV.Transition.Trace

namespace CRiscV

open Transition (Run Last Returns returns_ok returns_bind Yields yields_ok yields_ite yields_bind
  not_yields_error)

/-! ## One access -/

/-- The address that a call begins at. -/
def BusCall.offs : BusCall → Size
  | .readSingle _ offs _ | .writeSingle offs _ _ | .readMultiple offs _ _ _
  | .writeMultiple offs _ _ _ | .readString _ offs => offs

/-- A call that makes one access. -/
def BusCall.IsAccess : BusCall → Prop
  | .readSingle .. | .writeSingle .. | .readMultiple .. | .writeMultiple .. => True
  | .readString .. => False

def BusCall.IsBlockWrite : BusCall → Prop
  | .writeMultiple .. => True
  | .readSingle .. | .writeSingle .. | .readMultiple .. | .readString .. => False

def BusCall.IsBlock : BusCall → Prop
  | .readMultiple .. | .writeMultiple .. => True
  | .readSingle .. | .writeSingle .. | .readString .. => False

def BusCall.ToRam (call : BusCall) : Prop := (ramDevice .ready).covers call.offs = true

def BusCall.ToCsr (call : BusCall) : Prop :=
  (ramDevice .ready).covers call.offs = false ∧ (csrMmioDevice .ready).covers call.offs = true

/-- The MMU moves the bytes that the access is about. -/
def BusCall.Accepted (mmu : Mmu) : BusCall → Prop
  | .readSingle _ offs aw => mmu.Accepts (offs.setWidth 32) aw.bytes mpermRead
  | .writeSingle offs _ aw => mmu.Accepts (offs.setWidth 32) aw.bytes mpermWrite
  | .readMultiple offs _ count aw =>
      mmu.Accepts (offs.setWidth 32) (count * widthMult aw) mpermRead
  | .writeMultiple offs _ count aw =>
      mmu.Accepts (offs.setWidth 32) (count * widthMult aw) mpermWrite
  | .readString .. => True

/-- RAM after an access that the MMU has accepted or refused, with the memory laid out as
before. -/
structure RamServed (mmu : Mmu) (accepted : Prop) (dev : Device) (mmu' : Mmu) : Prop where
  device : ∃ state, dev = ramDevice state ∧ (state = .ready ↔ accepted)
  layout : mmu.SameLayout mmu'

section Handlers

variable {ram : DeviceState} {mmu : Mmu} {a : Word} {buf : Nat → BitVec 8} {count : Size}
  {aw : Width}

theorem readRam_served :
    RamServed mmu (mmu.Accepts a (count * widthMult aw) mpermRead)
      (readRam (ramDevice ram) mmu a buf count aw).2.2.1
      (readRam (ramDevice ram) mmu a buf count aw).2.2.2 := by
  by_cases haccepts : mmu.Accepts a (count * widthMult aw) mpermRead
  · rw [readRam_block buf haccepts]
    exact ⟨⟨.ready, rfl, iff_of_true rfl haccepts⟩, _, _, _, _, rfl⟩
  · obtain ⟨state, hrefused⟩ := readRam_refused (ramDevice ram) buf haccepts
    rw [hrefused]
    exact ⟨⟨.error, rfl, iff_of_false nofun haccepts⟩, _, _, _, _, rfl⟩

theorem readRamSingle_served (residue : BitVec 8) :
    RamServed mmu (mmu.Accepts a aw.bytes mpermRead)
      (readRamSingle residue (ramDevice ram) mmu a aw).2.1
      (readRamSingle residue (ramDevice ram) mmu a aw).2.2 := by
  cases aw with
  | byte => exact @readRam_served ram mmu a (fun _ => residue) 1 .byte
  | halfword => exact @readRam_served ram mmu a (fun _ => 0) 1 .halfword
  | word => exact @readRam_served ram mmu a (fun _ => 0) 1 .word

theorem writeRam_served :
    Returns (fun x => RamServed mmu (mmu.Accepts a (count * widthMult aw) mpermWrite) x.2.1 x.2.2)
      (writeRam (ramDevice ram) mmu a buf count aw) := by
  intro x hx
  obtain ⟨⟨n, m⟩, hwrite, hx⟩ := Transition.exists_of_bind_ok hx
  have hlayout := mmuWriteFrom_layout hwrite
  simp only at hx
  rcases mmuWriteFrom_cases hwrite with ⟨haccepts, -, rfl⟩ | ⟨hrefused, -, hstate⟩
  · cases hx
    exact ⟨⟨.ready, rfl, iff_of_true rfl haccepts⟩, hlayout⟩
  · rw [if_neg hstate] at hx
    cases hx
    exact ⟨⟨.error, rfl, iff_of_false nofun hrefused⟩, hlayout⟩

theorem writeRamSingle_served (value : Word) :
    Returns (fun x => RamServed mmu (mmu.Accepts a aw.bytes mpermWrite) x.1 x.2)
      (writeRamSingle (ramDevice ram) mmu a value aw) := by
  cases aw with
  | byte => exact returns_bind (@writeRam_served ram mmu a _ 1 .byte) fun _ h => returns_ok h
  | halfword =>
      exact returns_bind (@writeRam_served ram mmu a _ 1 .halfword) fun _ h => returns_ok h
  | word => exact returns_bind (@writeRam_served ram mmu a _ 1 .word) fun _ h => returns_ok h

end Handlers

/-! ## The state of RAM over a call -/

/-- The memory reaches the end of RAM's window. -/
def Mmu.SpansRam (mmu : Mmu) : Prop := wide ramEnd ≤ wide mmu.base + mmu.size

theorem Mmu.SpansRam.layout {mmu mmu' : Mmu} (h : mmu.SpansRam) (hlayout : mmu.SameLayout mmu') :
    mmu'.SpansRam := by
  obtain ⟨data, perm, dirty, state, rfl⟩ := hlayout
  exact h

/-- The emulator's bus, of which RAM is ready unless it has refused its last access. -/
def Bus.Tracks (bus : Bus) (refused : Prop) : Prop :=
  ∃ ram csr mutex status mmu, bus = emulatorBus ram csr mutex status mmu ∧
    (ram = .ready ↔ ¬ refused) ∧ mmu.SpansRam

theorem Bus.Tracks.isMain {bus : Bus} {refused : Prop} (h : bus.Tracks refused) : bus.IsMain := by
  obtain ⟨ram, csr, mutex, status, mmu, rfl, -⟩ := h
  exact ⟨ram, csr, mutex, status, mmu, rfl⟩

theorem Bus.Tracks.congr {bus : Bus} {refused refused' : Prop} (h : bus.Tracks refused)
    (hiff : refused ↔ refused') : bus.Tracks refused' := by
  obtain ⟨ram, csr, mutex, status, mmu, rfl, hram, hspans⟩ := h
  exact ⟨ram, csr, mutex, status, mmu, rfl, hram.trans (not_congr hiff), hspans⟩

section Calls

variable {ram csr : DeviceState} {mutex : Bool} {status : BusStatus} {mmu mmu' : Mmu} {bus' : Bus}
  {dev : Device} {accepted : Prop}

theorem RamServed.tracks (h : RamServed mmu accepted dev mmu') (hspans : mmu.SpansRam)
    (csr : DeviceState) (mutex : Bool) (status : BusStatus) :
    Bus.Tracks { mmioDevices := [dev, csrMmioDevice csr], mutex := mutex, status := status,
                 mmu := mmu' } (¬ accepted) := by
  obtain ⟨⟨state, rfl, hstate⟩, hlayout⟩ := h
  refine ⟨state, csr, mutex, status, mmu', rfl, ?_, hspans.layout hlayout⟩
  rw [hstate, Classical.not_not]

/-- RAM serves a call: it is ready afterwards unless it has refused the access. -/
theorem busCall_ram {call : BusCall} {answer : BusAnswer} (haccess : call.IsAccess)
    (hram : call.ToRam) (hspans : mmu.SpansRam)
    (h : busCall (emulatorBus ram csr false status mmu) call = .ok (answer, bus')) :
    bus'.Tracks (¬ call.Accepted mmu) := by
  cases call with
  | readSingle residue offs aw =>
      have hcovers : (ramDevice .ready).covers offs = true := hram
      obtain ⟨x, hx, h⟩ := Transition.exists_of_bind_ok h
      rw [busReadSingle_routed rfl (emulatorBus_ram hcovers)] at hx
      cases hx
      cases h
      exact (readRamSingle_served residue).tracks hspans csr false .ok
  | writeSingle offs value aw =>
      have hcovers : (ramDevice .ready).covers offs = true := hram
      obtain ⟨x, hx, h⟩ := Transition.exists_of_bind_ok h
      rw [busWriteSingle_routed rfl (emulatorBus_ram hcovers) writable] at hx
      obtain ⟨⟨dev, mmu'⟩, hdev, hx⟩ := Transition.exists_of_bind_ok hx
      cases hx
      cases h
      exact (writeRamSingle_served value _ hdev).tracks hspans csr false .ok
  | readMultiple offs dst count aw =>
      have hcovers : (ramDevice .ready).covers offs = true := hram
      obtain ⟨x, hx, h⟩ := Transition.exists_of_bind_ok h
      rw [busReadMultiple_routed rfl (emulatorBus_ram hcovers)] at hx
      obtain ⟨y, hdev, hx⟩ := Transition.exists_of_bind_ok hx
      cases hdev
      have hserved := @readRam_served ram mmu (offs.setWidth 32) dst count aw
      split_ifs at hx
      · cases hx
        cases h
        exact hserved.tracks hspans csr false .deviceFailure
      · cases hx
        cases h
        exact hserved.tracks hspans csr false .ok
  | writeMultiple offs src count aw =>
      have hcovers : (ramDevice .ready).covers offs = true := hram
      obtain ⟨x, hx, h⟩ := Transition.exists_of_bind_ok h
      rw [busWriteMultiple_routed rfl (emulatorBus_ram hcovers),
        if_neg (fun hne => hne writable)] at hx
      split_ifs at hx
      obtain ⟨y, hdev, hx⟩ := Transition.exists_of_bind_ok hx
      have hserved := writeRam_served y hdev
      split_ifs at hx
      · cases hx
        cases h
        exact hserved.tracks hspans csr true .deviceFailure
      · cases hx
        cases h
        exact hserved.tracks hspans csr false .ok
  | readString residue offs => cases haccess

/-- Other calls leave RAM as it was. -/
theorem busCall_notRam {call : BusCall} {answer : BusAnswer} {refused : Prop}
    (haccess : call.IsAccess) (hother : ¬ call.ToRam) (hspans : mmu.SpansRam)
    (hready : ram = .ready ↔ ¬ refused)
    (h : busCall (emulatorBus ram csr false status mmu) call = .ok (answer, bus')) :
    bus'.Tracks refused := by
  have hkept : ∀ csr' status', Bus.Tracks
      { mmioDevices := [ramDevice ram, csrMmioDevice csr'], mutex := false, status := status',
        mmu := mmu } refused := fun csr' status' => ⟨ram, csr', false, status', mmu, rfl, hready, hspans⟩
  cases call with
  | readSingle residue offs aw =>
      have hcovers : (ramDevice .ready).covers offs = false := Bool.eq_false_iff.mpr hother
      obtain ⟨x, hx, h⟩ := Transition.exists_of_bind_ok h
      cases hcsr : (csrMmioDevice .ready).covers offs with
      | true =>
          rw [busReadSingle_routed rfl (emulatorBus_csr hcovers hcsr)] at hx
          cases hx
          cases h
          exact hkept .error .ok
      | false =>
          rw [busReadSingle_unmapped rfl (emulatorBus_unmapped hcovers hcsr)] at hx
          cases hx
          cases h
          exact hkept csr .addressNotFound
  | writeSingle offs value aw =>
      have hcovers : (ramDevice .ready).covers offs = false := Bool.eq_false_iff.mpr hother
      obtain ⟨x, hx, h⟩ := Transition.exists_of_bind_ok h
      cases hcsr : (csrMmioDevice .ready).covers offs with
      | true =>
          rw [busWriteSingle_routed rfl (emulatorBus_csr hcovers hcsr) writable] at hx
          cases hx
          cases h
          exact hkept .error .ok
      | false =>
          rw [busWriteSingle_unmapped rfl (emulatorBus_unmapped hcovers hcsr)] at hx
          cases hx
          cases h
          exact hkept csr .addressNotFound
  | readMultiple offs dst count aw =>
      have hcovers : (ramDevice .ready).covers offs = false := Bool.eq_false_iff.mpr hother
      obtain ⟨x, hx, h⟩ := Transition.exists_of_bind_ok h
      cases hcsr : (csrMmioDevice .ready).covers offs with
      | true =>
          rw [busReadMultiple_routed rfl (emulatorBus_csr hcovers hcsr)] at hx
          cases hx
      | false =>
          rw [busReadMultiple_unmapped rfl (emulatorBus_unmapped hcovers hcsr)] at hx
          cases hx
          cases h
          exact hkept csr .addressNotFound
  | writeMultiple offs src count aw =>
      have hcovers : (ramDevice .ready).covers offs = false := Bool.eq_false_iff.mpr hother
      obtain ⟨x, hx, h⟩ := Transition.exists_of_bind_ok h
      cases hcsr : (csrMmioDevice .ready).covers offs with
      | true =>
          rw [busWriteMultiple_routed rfl (emulatorBus_csr hcovers hcsr),
            if_neg (fun hne => hne writable)] at hx
          split_ifs at hx
          cases hx
      | false =>
          rw [busWriteMultiple_unmapped rfl (emulatorBus_unmapped hcovers hcsr)] at hx
          cases hx
          cases h
          exact hkept csr .addressNotFound
  | readString residue offs => cases haccess

/-! ## Whether a call returns -/

/-- No address in RAM's window lies behind the memory. -/
theorem Mmu.SpansRam.not_beyond {offs : Size} (h : mmu.SpansRam)
    (hcovers : (ramDevice .ready).covers offs = true) :
    ¬ wide (offs.setWidth 32) > wide mmu.base + mmu.size := by
  have hlt := ramDevice_covers_lt hcovers
  have hend : (wide ramEnd).toNat = 0x7ffff := by decide
  unfold Mmu.SpansRam at h
  rw [BitVec.le_def, hend] at h
  rw [gt_iff_lt, BitVec.lt_def, wide_toNat, BitVec.toNat_setWidth]
  omega

theorem mmuWriteFrom_yields {vaddr : Vaddr} (h : ¬ wide vaddr > wide mmu.base + mmu.size)
    (src : Nat → BitVec 8) (n : Size) : Yields (mmuWriteFrom mmu src vaddr n) := by
  unfold mmuWriteFrom
  rw [if_neg h]
  exact yields_ite (yields_ok _) (yields_ite (yields_ok _) (yields_ok _))

theorem writeRam_yields {offs : Size} (hspans : mmu.SpansRam)
    (hcovers : (ramDevice .ready).covers offs = true) (ram : Device) (buf : Nat → BitVec 8)
    (count : Size) (aw : Width) :
    Yields (writeRam ram mmu (offs.setWidth 32) buf count aw) :=
  yields_bind (mmuWriteFrom_yields (hspans.not_beyond hcovers) buf _) fun _ _ =>
    yields_ite (yields_ok _) (yields_ok _)

theorem writeRamSingle_yields {offs : Size} (hspans : mmu.SpansRam)
    (hcovers : (ramDevice .ready).covers offs = true) (ram : Device) (value : Word) (aw : Width) :
    Yields (writeRamSingle ram mmu (offs.setWidth 32) value aw) := by
  unfold writeRamSingle
  cases aw with
  | byte | halfword | word =>
      exact yields_bind (writeRam_yields hspans hcovers ram _ 1 _) fun _ _ => yields_ok _

section Released

variable {offs : Size} {aw : Width}

theorem busReadSingle_yields (residue : BitVec 8) :
    Yields (busReadSingle residue (emulatorBus ram csr false status mmu) offs aw) := by
  cases hcovers : (ramDevice .ready).covers offs with
  | true =>
      rw [busReadSingle_routed rfl (emulatorBus_ram hcovers)]
      exact yields_ok _
  | false =>
      cases hcsr : (csrMmioDevice .ready).covers offs with
      | true =>
          rw [busReadSingle_routed rfl (emulatorBus_csr hcovers hcsr)]
          exact yields_ok _
      | false =>
          rw [busReadSingle_unmapped rfl (emulatorBus_unmapped hcovers hcsr)]
          exact yields_ok _

theorem busWriteSingle_yields (hspans : mmu.SpansRam) (value : Word) :
    Yields (busWriteSingle (emulatorBus ram csr false status mmu) offs value aw) := by
  cases hcovers : (ramDevice .ready).covers offs with
  | true =>
      rw [busWriteSingle_routed rfl (emulatorBus_ram hcovers) writable]
      exact yields_bind (writeRamSingle_yields hspans hcovers _ value aw) fun _ _ => yields_ok _
  | false =>
      cases hcsr : (csrMmioDevice .ready).covers offs with
      | true =>
          rw [busWriteSingle_routed rfl (emulatorBus_csr hcovers hcsr) writable]
          exact yields_ok _
      | false =>
          rw [busWriteSingle_unmapped rfl (emulatorBus_unmapped hcovers hcsr)]
          exact yields_ok _

theorem busReadMultiple_yields_iff (dst : Nat → BitVec 8) (count : Size) :
    Yields (busReadMultiple (emulatorBus ram csr false status mmu) offs dst count aw) ↔
      ¬ BusCall.ToCsr (.readMultiple offs dst count aw) := by
  unfold BusCall.ToCsr BusCall.offs
  cases hcovers : (ramDevice .ready).covers offs with
  | true =>
      rw [busReadMultiple_routed rfl (emulatorBus_ram hcovers)]
      refine iff_of_true ?_ (fun h => Bool.false_ne_true h.1.symm)
      exact yields_bind (yields_ok _) fun _ _ => yields_ite (yields_ok _) (yields_ok _)
  | false =>
      cases hcsr : (csrMmioDevice .ready).covers offs with
      | true =>
          rw [busReadMultiple_routed rfl (emulatorBus_csr hcovers hcsr)]
          exact iff_of_false (not_yields_error _) (fun h => h ⟨rfl, rfl⟩)
      | false =>
          rw [busReadMultiple_unmapped rfl (emulatorBus_unmapped hcovers hcsr)]
          exact iff_of_true (yields_ok _) (fun h => Bool.false_ne_true h.2)

theorem busWriteMultiple_yields_iff (hspans : mmu.SpansRam) (src : Nat → BitVec 8)
    (count : Size) :
    Yields (busWriteMultiple (emulatorBus ram csr false status mmu) offs src count aw) ↔
      ¬ BusCall.ToCsr (.writeMultiple offs src count aw) ∧
        (BusCall.ToRam (.writeMultiple offs src count aw) → ram = .ready) := by
  unfold BusCall.ToCsr BusCall.ToRam BusCall.offs
  cases hcovers : (ramDevice .ready).covers offs with
  | true =>
      rw [busWriteMultiple_routed rfl (emulatorBus_ram hcovers), if_neg (fun hne => hne writable)]
      rw [and_iff_right (fun h => Bool.false_ne_true h.1.symm), forall_prop_of_true rfl]
      by_cases hready : ram = .ready
      · rw [hready]
        refine iff_of_true ?_ rfl
        exact yields_bind (writeRam_yields hspans hcovers _ src count aw) fun _ _ =>
          yields_ite (yields_ok _) (yields_ok _)
      · refine iff_of_false ?_ hready
        have hstate : (ramDevice ram).state ≠ .ready := hready
        rw [if_pos hstate]
        exact not_yields_error _
  | false =>
      cases hcsr : (csrMmioDevice .ready).covers offs with
      | true =>
          rw [busWriteMultiple_routed rfl (emulatorBus_csr hcovers hcsr),
            if_neg (fun hne => hne writable)]
          refine iff_of_false ?_ (fun h => h.1 ⟨rfl, rfl⟩)
          split_ifs
          · exact not_yields_error _
          · exact not_yields_error _
      | false =>
          rw [busWriteMultiple_unmapped rfl (emulatorBus_unmapped hcovers hcsr)]
          exact iff_of_true (yields_ok _)
            ⟨fun h => Bool.false_ne_true h.2, fun h => absurd h Bool.false_ne_true⟩

end Released

/-- A step behind the call does not fail. -/
theorem yields_pair_iff {α β E : Type} {x : Except E α} {f : α → β} :
    Yields (x >>= fun a => .ok (f a)) ↔ Yields x := by
  constructor
  · rintro ⟨b, hb⟩
    obtain ⟨a, ha, -⟩ := Transition.exists_of_bind_ok hb
    exact ⟨a, ha⟩
  · intro hx
    exact yields_bind hx fun a _ => yields_ok (f a)

/-- On the released bus, single accesses return, a block access returns outside the window of
the CSR device, and a block write to RAM needs RAM to be ready. -/
theorem emulatorBus_yields_iff {call : BusCall} (haccess : call.IsAccess) (hspans : mmu.SpansRam) :
    Yields (busCall (emulatorBus ram csr false status mmu) call) ↔
      (call.IsBlock → ¬ call.ToCsr) ∧ (call.IsBlockWrite → call.ToRam → ram = .ready) := by
  cases call with
  | readSingle residue offs aw =>
      refine iff_of_true ?_ ⟨False.elim, False.elim⟩
      exact yields_bind (busReadSingle_yields residue) fun _ _ => yields_ok _
  | writeSingle offs value aw =>
      refine iff_of_true ?_ ⟨False.elim, False.elim⟩
      exact yields_bind (busWriteSingle_yields hspans value) fun _ _ => yields_ok _
  | readMultiple offs dst count aw =>
      have hblock := @busReadMultiple_yields_iff ram csr status mmu offs aw dst count
      refine (yields_pair_iff.trans hblock).trans ?_
      exact ⟨fun h => ⟨fun _ => h, False.elim⟩, fun h => h.1 trivial⟩
  | writeMultiple offs src count aw =>
      have hblock := @busWriteMultiple_yields_iff ram csr status mmu offs aw hspans src count
      refine (yields_pair_iff.trans hblock).trans ?_
      exact ⟨fun h => ⟨fun _ => h.1, fun _ => h.2⟩, fun h => ⟨h.1 trivial, h.2 trivial⟩⟩
  | readString residue offs => cases haccess

end Calls

/-! ## Runs -/

/-- `emulator_init` asks for memory up to the end of RAM's window. -/
theorem mmuInit_spansRam {heap : Heap} {mmu : Mmu}
    (h : mmuInit heap ramStart (wide ramSize) = .ok (some mmu)) : mmu.SpansRam := by
  have hfresh := mmuInit_fresh h
  unfold Mmu.SpansRam
  rw [hfresh.base, hfresh.size]
  decide

/-- The memory grows or stays. -/
theorem MmuStep.spansRam {mmu mmu' : Mmu} {event : MmuEvent} (hspans : mmu.SpansRam)
    (h : MmuStep mmu event mmu') : mmu'.SpansRam := by
  cases event with
  | setperm vaddr size perm => exact hspans.layout (mmuSetperm_layout h)
  | addMemory heap addr size perm added =>
      cases mmuAddMemory_cases h with
      | inside hinside hlayout =>
          refine Mmu.SpansRam.layout ?_ hlayout
          exact hspans
      | extended hextends hgrants hlayout =>
          refine Mmu.SpansRam.layout ?_ hlayout
          have hend : wide mmu.base + mmu.extendedSize addr size = wide addr + size := by
            rw [Mmu.extendedSize, BitVec.add_comm, BitVec.sub_add_cancel]
          show wide ramEnd ≤ wide mmu.base + mmu.extendedSize addr size
          rw [hend]
          exact BitVec.le_trans hspans (BitVec.le_of_lt hextends)
      | refused hextends hgrants dataBlock permBlock hlayout =>
          refine Mmu.SpansRam.layout ?_ hlayout
          exact hspans
  | allocate size perm addr =>
      rcases mmuAllocate_cases h with ⟨-, rfl⟩ | ⟨-, -, -, -, rfl⟩
      · exact hspans
      · exact hspans
  | allocateRaw size addr =>
      rcases mmuAllocate_cases h with ⟨-, rfl⟩ | ⟨-, -, -, -, rfl⟩
      · exact hspans
      · exact hspans
  | writeFrom src vaddr size count => exact hspans.layout (mmuWriteFrom_layout h)
  | readInto dst vaddr size count buf => exact hspans.layout (mmuReadInto_layout h)

/-- A call that returned, with the bus that it found and its answer. -/
structure BusEvent where
  found : Bus
  call : BusCall
  answer : BusAnswer

/-- An access that returns, as an event. -/
def AccessStep (bus : Bus) (event : BusEvent) (bus' : Bus) : Prop :=
  event.found = bus ∧ event.call.IsAccess ∧ BusStep bus (event.call, event.answer) bus'

/-- Of the accesses that RAM has served, the last one was refused by the MMU. -/
def LastRefused (events : List BusEvent) : Prop :=
  Last (fun event => event.call.ToRam)
    (fun event => event.call.ToRam ∧ ¬ event.call.Accepted event.found.mmu) events

theorem lastRefused_snoc {events : List BusEvent} {event : BusEvent} :
    LastRefused (events ++ [event]) ↔
      event.call.ToRam ∧ ¬ event.call.Accepted event.found.mmu ∨
        ¬ event.call.ToRam ∧ LastRefused events := Transition.last_snoc

/-- What RAM tells of the calls so far, after one more. -/
theorem AccessStep.tracks {bus bus' : Bus} {events : List BusEvent} {event : BusEvent}
    (htracks : bus.Tracks (LastRefused events)) (h : AccessStep bus event bus') :
    bus'.Tracks (LastRefused (events ++ [event])) := by
  obtain ⟨hfound, haccess, hcall⟩ := h
  have hfree := unlocked_of_busCall hcall
  obtain ⟨ram, csr, mutex, status, mmu, rfl, hready, hspans⟩ := htracks
  cases hfree
  by_cases hram : event.call.ToRam
  · refine (busCall_ram haccess hram hspans hcall).congr ?_
    rw [lastRefused_snoc, hfound]
    exact ⟨fun hrefused => Or.inl ⟨hram, hrefused⟩,
      fun hlast => (hlast.resolve_right fun hother => hother.1 hram).2⟩
  · refine (busCall_notRam haccess hram hspans hready hcall).congr ?_
    rw [lastRefused_snoc]
    exact ⟨fun hlast => Or.inr ⟨hram, hlast⟩,
      fun hlast => (hlast.resolve_left fun hserved => hram hserved.1).2⟩

/-- The mutex is free as long as no block write was cut short. -/
theorem AccessStep.free {bus bus' : Bus} {event : BusEvent} (hmain : bus.IsMain)
    (h : AccessStep bus event bus') :
    bus.mutex = false ∧ (bus'.mutex = false ↔ event.call.Releases event.found) := by
  obtain ⟨hfound, -, hcall⟩ := h
  rw [hfound]
  exact ⟨unlocked_of_busCall hcall, busStep_unlocks_iff hmain hcall⟩

theorem accessRun_tracks {bus bus' : Bus} {events : List BusEvent}
    (htracks : bus.Tracks (LastRefused [])) (hfree : bus.mutex = false)
    (hrun : Run AccessStep bus events bus') :
    bus'.Tracks (LastRefused events) ∧
      (bus'.mutex = false ↔ ∀ event ∈ events, event.call.Releases event.found) := by
  induction hrun with
  | nil => exact ⟨htracks, iff_of_true hfree (List.forall_mem_nil _)⟩
  | @snoc events bus bus' event hrun hstep ih =>
      obtain ⟨htracks, hreleased⟩ := ih
      obtain ⟨hfound, hlast⟩ := hstep.free htracks.isMain
      refine ⟨hstep.tracks htracks, ?_⟩
      rw [hlast, List.forall_mem_append, List.forall_mem_singleton,
        and_iff_right (hreleased.mp hfound)]

/-- No access changes the size of the memory or a block behind it. -/
theorem AccessStep.covers {bus bus' : Bus} {event : BusEvent} (hcovers : bus.mmu.Covers)
    (h : AccessStep bus event bus') : bus'.mmu.Covers :=
  hcovers.layout (busCall_frame h.2.2).2

/-- After any accesses that returned, from the emulator's bus over memory that
`emulator_init` has made and any calls of the MMU have changed, and that its blocks cover, they
cover it still, and the next access returns if and only if no block write before it was cut
short, it is no block access to the CSR device, and, if it is a block write to RAM, the last
access that RAM has served was not refused. -/
theorem access_returns_iff {heap : Heap} {mmu₀ mmu : Mmu} {changes : List MmuEvent}
    {bus : Bus} {events : List BusEvent} {call : BusCall}
    (hinit : mmuInit heap ramStart (wide ramSize) = .ok (some mmu₀))
    (hchanges : Run MmuStep mmu₀ changes mmu) (hcovers : mmu.Covers)
    (hrun : Run AccessStep (mainBus mmu) events bus) (haccess : call.IsAccess) :
    bus.mmu.Covers ∧
      ((∃ answer bus', busCall bus call = .ok (answer, bus')) ↔
        (∀ event ∈ events, event.call.Releases event.found) ∧ (call.IsBlock → ¬ call.ToCsr) ∧
          (call.IsBlockWrite → call.ToRam → ¬ LastRefused events)) := by
  refine ⟨hrun.invariant (I := fun bus => bus.mmu.Covers) hcovers AccessStep.covers, ?_⟩
  have hspans : mmu.SpansRam := hchanges.invariant (mmuInit_spansRam hinit) MmuStep.spansRam
  have hstart : (mainBus mmu).Tracks (LastRefused []) := by
    refine ⟨.ready, .ready, false, .ok, mmu, mainBus_eq mmu, ?_, hspans⟩
    exact iff_of_true rfl Transition.not_last_nil
  obtain ⟨htracks, hfree⟩ := accessRun_tracks hstart rfl hrun
  rw [← hfree]
  obtain ⟨ram, csr, mutex, status, mmu', rfl, hready, hspans'⟩ := htracks
  rw [← hready]
  cases mutex with
  | true =>
      refine iff_of_false ?_ nofun
      rintro ⟨answer, bus', hcall⟩
      cases unlocked_of_busCall hcall
  | false =>
      have hyields := @emulatorBus_yields_iff ram csr status mmu' call haccess hspans'
      rw [and_iff_right (show (emulatorBus ram csr false status mmu').mutex = false from rfl),
        ← hyields]
      constructor
      · rintro ⟨answer, bus', hcall⟩
        exact ⟨(answer, bus'), hcall⟩
      · rintro ⟨⟨answer, bus'⟩, hcall⟩
        exact ⟨answer, bus', hcall⟩

/-! ## Concrete runs -/

/-- The emulator's bus after a read that RAM has refused. -/
def refusingBus : Bus :=
  emulatorBus .error .ready false .ok { initialMmu with state := .accessDenied }

/-- A word that was not written yet reads as 0, and only RAM knows that it was refused. -/
theorem unwrittenWord_refused :
    AccessStep (mainBus initialMmu) ⟨mainBus initialMmu, .readSingle 0 0x10000 .word, .value 0⟩
      refusingBus := ⟨rfl, trivial, rfl⟩

/-- A refused read, a write that RAM accepts, and then a block write. -/
theorem recoveredRam_returns : ∃ bus,
    mmuInit generousHeap ramStart (wide ramSize) = .ok (some initialMmu) ∧
    Run AccessStep (mainBus initialMmu)
      [⟨mainBus initialMmu, .readSingle 0 0x10000 .word, .value 0⟩,
        ⟨refusingBus, .writeSingle 0x10000 7 .word, .done⟩] bus ∧
    ∃ answer bus', busCall bus (.writeMultiple 0x10000 (fun _ => 7) 4 .byte) =
      .ok (answer, bus') := by
  obtain ⟨bus, hwrite⟩ : ∃ bus,
      AccessStep refusingBus ⟨refusingBus, .writeSingle 0x10000 7 .word, .done⟩ bus :=
    ⟨_, rfl, trivial, rfl⟩
  have hrun := (Run.single unwrittenWord_refused).snoc hwrite
  have haccess : (BusCall.writeMultiple 0x10000 (fun _ => 7) 4 .byte).IsAccess := trivial
  refine ⟨bus, mmuInit_initial, hrun, ?_⟩
  refine (access_returns_iff mmuInit_initial .nil initialMmu_covers hrun haccess).2.mpr
    ⟨?_, fun _ hcsr => ?_, fun _ _ => ?_⟩
  · intro event hevent
    rcases List.mem_pair.mp hevent with rfl | rfl
    · trivial
    · trivial
  · exact absurd hcsr.1 (by decide)
  · have haccepts : refusingBus.mmu.Accepts ((0x10000 : Size).setWidth 32) Width.word.bytes
        mpermWrite := ⟨rfl, rfl⟩
    rw [lastRefused_snoc]
    rintro (⟨-, hrefused⟩ | ⟨hother, -⟩)
    · exact hrefused haccepts
    · exact hother rfl

/-- A block write that returns, and that does not return behind a read of a word that was not
written yet; and a block read in the window of the CSR device. -/
theorem refusedRead_aborts : ∃ bus,
    mmuInit generousHeap ramStart (wide ramSize) = .ok (some initialMmu) ∧
    Run AccessStep (mainBus initialMmu)
      [⟨mainBus initialMmu, .readSingle 0 0x10000 .word, .value 0⟩] bus ∧
    (∃ bus', busCall (mainBus initialMmu) (.writeMultiple 0x10000 (fun _ => 7) 4 .byte) =
      .ok (.count 4, bus')) ∧
    busCall bus (.writeMultiple 0x10000 (fun _ => 7) 4 .byte) = .error .assertion ∧
    busCall (mainBus initialMmu) (.readMultiple 0x1abfff (fun _ => 0) 4 .byte) =
      .error .nullHandler :=
  ⟨refusingBus, mmuInit_initial, Run.single unwrittenWord_refused, ⟨_, rfl⟩, rfl, rfl⟩

end CRiscV
