/-
The emulator's bus in any of its states, and when two such states answer every
access alike.

Three flags record the outcome of the last access: the status of the bus, the state
of the MMU and the state of RAM.  Every access sets the first two before anything
reads them, and the third is read by block writes only, which require RAM to be
ready.
-/
import CRiscV.Bus.Access

namespace CRiscV

open Transition (Returns returns_ok returns_ite returns_bind returns_any
  Follows follows_ok follows_error follows_ite follows_bind follows_self)

/-- `main_bus`, with its flags as arguments. -/
def emulatorBus (ram csr : DeviceState) (mutex : Bool) (status : BusStatus) (mmu : Mmu) : Bus :=
  { mmioDevices := [ramDevice ram, csrMmioDevice csr]
    mutex := mutex
    status := status
    mmu := mmu }

/-- The bus is the emulator's in one of its states. -/
def Bus.IsMain (bus : Bus) : Prop :=
  ∃ ram csr mutex status mmu, bus = emulatorBus ram csr mutex status mmu

theorem mainBus_eq (mmu : Mmu) : mainBus mmu = emulatorBus .ready .ready false .ok mmu := rfl

/-- Two states of the emulator's bus that differ in the outcome of the last access
at most, with RAM ready in the second if it is in the first. -/
inductive Bus.Agrees : Bus → Bus → Prop
  | mk (ram ram' csr : DeviceState) (mutex : Bool) (status status' : BusStatus) (mmu : Mmu)
      (state : MmuState) (hram : ram' = ram ∨ ram' = .ready) :
      Agrees (emulatorBus ram csr mutex status mmu)
        (emulatorBus ram' csr mutex status' { mmu with state := state })

theorem Bus.Agrees.memory {bus bus' : Bus} (h : bus.Agrees bus') :
    bus.mmu.SameMemory bus'.mmu := by
  cases h
  exact ⟨_, rfl⟩

/-! ## Handlers of RAM

They do not look at the flags, so two states of the bus get the same answer, and
they leave a device that is still RAM. -/

theorem readRam_device (ram : DeviceState) (mmu : Mmu) (offs : Word) (buf : Nat → BitVec 8)
    (count : Size) (aw : Width) :
    ∃ state, (readRam (ramDevice ram) mmu offs buf count aw).2.2.1 = ramDevice state := by
  unfold readRam
  simp only
  split
  · exact ⟨.ready, rfl⟩
  · exact ⟨.error, rfl⟩

theorem readRamSingle_device (residue : BitVec 8) (ram : DeviceState) (mmu : Mmu) (offs : Word)
    (aw : Width) :
    ∃ state, (readRamSingle residue (ramDevice ram) mmu offs aw).2.1 = ramDevice state := by
  cases aw with
  | byte => exact readRam_device ram mmu offs (fun _ => residue) 1 .byte
  | halfword => exact readRam_device ram mmu offs (fun _ => 0) 1 .halfword
  | word => exact readRam_device ram mmu offs (fun _ => 0) 1 .word

theorem writeRam_device (ram : DeviceState) (mmu : Mmu) (offs : Word) (buf : Nat → BitVec 8)
    (count : Size) (aw : Width) :
    Returns (fun x => ∃ state, x.2.1 = ramDevice state)
      (writeRam (ramDevice ram) mmu offs buf count aw) := by
  refine returns_bind (returns_any _) fun x _ => ?_
  exact returns_ite (returns_ok ⟨.ready, rfl⟩) (returns_ok ⟨.error, rfl⟩)

theorem writeRamSingle_device (ram : DeviceState) (mmu : Mmu) (offs value : Word) (aw : Width) :
    Returns (fun x => ∃ state, x.1 = ramDevice state)
      (writeRamSingle (ramDevice ram) mmu offs value aw) := by
  cases aw with
  | byte => exact returns_bind (writeRam_device ram mmu offs _ 1 .byte) fun _ h => returns_ok h
  | halfword =>
      exact returns_bind (writeRam_device ram mmu offs _ 1 .halfword) fun _ h => returns_ok h
  | word => exact returns_bind (writeRam_device ram mmu offs _ 1 .word) fun _ h => returns_ok h

section Handlers

variable (ram ram' : DeviceState) (mmu : Mmu) (state : MmuState) (offs : Word) (count : Size)
  (aw : Width)

theorem readSingle_follows (residue : BitVec 8) :
    Follows (fun x y => y = x ∧ ∃ state, x.2.1 = ramDevice state)
      ((ramDevice ram).readSingle residue mmu offs aw)
      ((ramDevice ram').readSingle residue { mmu with state := state } offs aw) :=
  follows_self (returns_ok (readRamSingle_device residue ram mmu offs aw))

theorem read_follows (buf : Nat → BitVec 8) :
    Follows (fun x y => y = x ∧ ∃ state, x.2.2.1 = ramDevice state)
      ((ramDevice ram).read mmu offs buf count aw)
      ((ramDevice ram').read { mmu with state := state } offs buf count aw) :=
  follows_self (returns_ok (readRam_device ram mmu offs buf count aw))

theorem writeSingle_follows (value : Word) :
    Follows (fun x y => y = x ∧ ∃ state, x.1 = ramDevice state)
      ((ramDevice ram).writeSingle mmu offs value aw)
      ((ramDevice ram').writeSingle { mmu with state := state } offs value aw) :=
  follows_self (writeRamSingle_device ram mmu offs value aw)

theorem write_follows (buf : Nat → BitVec 8) :
    Follows (fun x y => y = x ∧ ∃ state, x.2.1 = ramDevice state)
      ((ramDevice ram).write mmu offs buf count aw)
      ((ramDevice ram').write { mmu with state := state } offs buf count aw) :=
  follows_self (writeRam_device ram mmu offs buf count aw)

end Handlers

/-! ## Routing -/

section Routing

variable {ram csr : DeviceState} {mutex : Bool} {status : BusStatus} {mmu : Mmu} {offs : Size}

/-- The window of a device whose end is below `2 ^ 32`. -/
theorem Device.covers_iff {dev : Device} :
    dev.covers offs = true ↔ dev.baseAddress.toNat ≤ offs.toNat ∧
      offs.toNat < (dev.baseAddress + dev.size).toNat := by
  unfold Device.covers
  rw [Bool.and_eq_true, decide_eq_true_iff, decide_eq_true_iff, gt_iff_lt, BitVec.le_def,
    BitVec.lt_def, wide_toNat, wide_toNat]

theorem ramDevice_covers_range {state : DeviceState} :
    (ramDevice state).covers offs = true ↔ 0x10000 ≤ offs.toNat ∧ offs.toNat < 0x7ffff := by
  have hstart : ramStart.toNat = 0x10000 := rfl
  have hend : (ramStart + ramSize).toNat = 0x7ffff := by decide
  rw [Device.covers_iff]
  show ramStart.toNat ≤ _ ∧ _ < (ramStart + ramSize).toNat ↔ _
  rw [hstart, hend]

theorem csrMmioDevice_covers_range {state : DeviceState} :
    (csrMmioDevice state).covers offs = true ↔ 0x1abfff ≤ offs.toNat ∧ offs.toNat < 0x1acfff := by
  have hstart : csrMmapBaseAddr.toNat = 0x1abfff := by decide
  have hend : (csrMmapBaseAddr + 0x1000).toNat = 0x1acfff := by decide
  rw [Device.covers_iff]
  show csrMmapBaseAddr.toNat ≤ _ ∧ _ < (csrMmapBaseAddr + 0x1000).toNat ↔ _
  rw [hstart, hend]

/-- The window of RAM ends at `RAM_END`. -/
theorem ramDevice_covers_lt {state : DeviceState} (h : (ramDevice state).covers offs = true) :
    offs.toNat < 0x7ffff := (ramDevice_covers_range.mp h).2

/-- The windows of the two devices are apart. -/
theorem csr_not_ram (h : (ramDevice .ready).covers offs = true) :
    (csrMmioDevice .ready).covers offs = false := by
  rw [ramDevice_covers_range] at h
  rw [← Bool.not_eq_true, csrMmioDevice_covers_range]
  omega

theorem ram_not_csr (h : (csrMmioDevice .ready).covers offs = true) :
    (ramDevice .ready).covers offs = false := by
  by_contra hram
  rw [Bool.not_eq_false] at hram
  rw [csr_not_ram hram] at h
  exact Bool.false_ne_true h

theorem emulatorBus_ram (h : (ramDevice .ready).covers offs = true) :
    (emulatorBus ram csr mutex status mmu).Routes offs 0 (ramDevice ram) := by
  have hram : (ramDevice ram).covers offs = true := h
  unfold Bus.Routes
  rw [busFindDevice_fst]
  simp [emulatorBus, List.findIdx?_cons, hram]

theorem emulatorBus_csr (h : (ramDevice .ready).covers offs = false)
    (h' : (csrMmioDevice .ready).covers offs = true) :
    (emulatorBus ram csr mutex status mmu).Routes offs 1 (csrMmioDevice csr) := by
  have hram : (ramDevice ram).covers offs = false := h
  have hcsr : (csrMmioDevice csr).covers offs = true := h'
  unfold Bus.Routes
  rw [busFindDevice_fst]
  simp [emulatorBus, List.findIdx?_cons, hram, hcsr]

theorem emulatorBus_unmapped (h : (ramDevice .ready).covers offs = false)
    (h' : (csrMmioDevice .ready).covers offs = false) :
    (emulatorBus ram csr mutex status mmu).Unmapped offs := by
  have hram : (ramDevice ram).covers offs = false := h
  have hcsr : (csrMmioDevice csr).covers offs = false := h'
  unfold Bus.Unmapped
  rw [busFindDevice_fst]
  simp [emulatorBus, List.findIdx?_cons, hram, hcsr]

end Routing

/-! ## Accesses -/

/-- Two answers of an access: the same value and status, from buses that still agree. -/
structure SameAnswer {α : Type} (x y : α × Bus) : Prop where
  value : y.1 = x.1
  status : y.2.status = x.2.status
  agrees : x.2.Agrees y.2

theorem emulatorBus_agrees (ram csr : DeviceState) (mutex : Bool) (status : BusStatus)
    (mmu : Mmu) :
    (emulatorBus ram csr mutex status mmu).Agrees (emulatorBus ram csr mutex status mmu) :=
  .mk ram ram csr mutex status status mmu mmu.state (Or.inl rfl)

/-- Both devices of the emulator may be written. -/
theorem writable : (mmioRead ||| mmioWrite) &&& mmioWrite = mmioWrite := by decide

theorem Bus.IsMain.agrees {bus : Bus} (h : bus.IsMain) : bus.Agrees bus := by
  obtain ⟨ram, csr, mutex, status, mmu, rfl⟩ := h
  exact emulatorBus_agrees ram csr mutex status mmu

theorem Bus.Agrees.isMain {bus bus' : Bus} (h : bus.Agrees bus') : bus.IsMain := by
  cases h with
  | mk ram ram' csr mutex status status' mmu state hram => exact ⟨ram, csr, mutex, status, mmu, rfl⟩

section Access

variable {bus bus' : Bus}

theorem busReadSingle_agrees (h : bus.Agrees bus') (residue : BitVec 8) (offs : Size)
    (aw : Width) :
    Follows SameAnswer (busReadSingle residue bus offs aw) (busReadSingle residue bus' offs aw) := by
  cases h with
  | mk ram ram' csr mutex status status' mmu state hram =>
    cases mutex with
    | true =>
        rw [busReadSingle_locked rfl]
        exact follows_error _ _
    | false =>
        cases hcovers : (ramDevice .ready).covers offs with
        | true =>
            rw [busReadSingle_routed rfl (emulatorBus_ram hcovers),
              busReadSingle_routed rfl (emulatorBus_ram hcovers)]
            refine follows_bind (readSingle_follows ram ram' mmu state _ aw residue) ?_
            intro x y hxy
            obtain ⟨rfl, s, hdev⟩ := hxy
            refine follows_ok ⟨rfl, rfl, ?_⟩
            rw [hdev]
            exact emulatorBus_agrees s csr false .ok y.2.2
        | false =>
            cases hcsr : (csrMmioDevice .ready).covers offs with
            | true =>
                rw [busReadSingle_routed rfl (emulatorBus_csr hcovers hcsr),
                  busReadSingle_routed rfl (emulatorBus_csr hcovers hcsr)]
                exact follows_ok ⟨rfl, rfl, .mk ram ram' .error false _ _ mmu state hram⟩
            | false =>
                rw [busReadSingle_unmapped rfl (emulatorBus_unmapped hcovers hcsr),
                  busReadSingle_unmapped rfl (emulatorBus_unmapped hcovers hcsr)]
                exact follows_ok ⟨rfl, rfl, .mk ram ram' csr false _ _ mmu state hram⟩

theorem busWriteSingle_agrees (h : bus.Agrees bus') (offs : Size) (value : Word) (aw : Width) :
    Follows (fun b b' => b'.status = b.status ∧ b.Agrees b') (busWriteSingle bus offs value aw)
      (busWriteSingle bus' offs value aw) := by
  cases h with
  | mk ram ram' csr mutex status status' mmu state hram =>
    cases mutex with
    | true =>
        rw [busWriteSingle_locked rfl]
        exact follows_error _ _
    | false =>
        cases hcovers : (ramDevice .ready).covers offs with
        | true =>
            rw [busWriteSingle_routed rfl (emulatorBus_ram hcovers) writable,
              busWriteSingle_routed rfl (emulatorBus_ram hcovers) writable]
            refine follows_bind (writeSingle_follows ram ram' mmu state _ aw value) ?_
            intro x y hxy
            obtain ⟨rfl, s, hdev⟩ := hxy
            refine follows_ok ⟨rfl, ?_⟩
            rw [hdev]
            exact emulatorBus_agrees s csr false .ok y.2
        | false =>
            cases hcsr : (csrMmioDevice .ready).covers offs with
            | true =>
                rw [busWriteSingle_routed rfl (emulatorBus_csr hcovers hcsr) writable,
                  busWriteSingle_routed rfl (emulatorBus_csr hcovers hcsr) writable]
                exact follows_ok ⟨rfl, .mk ram ram' .error false _ _ mmu state hram⟩
            | false =>
                rw [busWriteSingle_unmapped rfl (emulatorBus_unmapped hcovers hcsr),
                  busWriteSingle_unmapped rfl (emulatorBus_unmapped hcovers hcsr)]
                exact follows_ok ⟨rfl, .mk ram ram' csr false _ _ mmu state hram⟩

theorem busReadMultiple_agrees (h : bus.Agrees bus') (offs : Size) (dst : Nat → BitVec 8)
    (count : Size) (aw : Width) :
    Follows (fun x y => y.1 = x.1 ∧ SameAnswer x.2 y.2) (busReadMultiple bus offs dst count aw)
      (busReadMultiple bus' offs dst count aw) := by
  cases h with
  | mk ram ram' csr mutex status status' mmu state hram =>
    cases mutex with
    | true =>
        rw [busReadMultiple_locked rfl]
        exact follows_error _ _
    | false =>
        cases hcovers : (ramDevice .ready).covers offs with
        | true =>
            rw [busReadMultiple_routed rfl (emulatorBus_ram hcovers),
              busReadMultiple_routed rfl (emulatorBus_ram hcovers)]
            refine follows_bind (read_follows ram ram' mmu state _ count aw dst) ?_
            intro x y hxy
            obtain ⟨rfl, s, hdev⟩ := hxy
            rw [hdev]
            refine follows_ite Iff.rfl (follows_ok ⟨rfl, rfl, rfl, ?_⟩)
              (follows_ok ⟨rfl, rfl, rfl, ?_⟩)
            · exact emulatorBus_agrees s csr false .deviceFailure y.2.2.2
            · exact emulatorBus_agrees s csr false .ok y.2.2.2
        | false =>
            cases hcsr : (csrMmioDevice .ready).covers offs with
            | true =>
                rw [busReadMultiple_routed rfl (emulatorBus_csr hcovers hcsr)]
                exact follows_error _ _
            | false =>
                rw [busReadMultiple_unmapped rfl (emulatorBus_unmapped hcovers hcsr),
                  busReadMultiple_unmapped rfl (emulatorBus_unmapped hcovers hcsr)]
                exact follows_ok ⟨rfl, rfl, rfl, .mk ram ram' csr false _ _ mmu state hram⟩

theorem busWriteMultiple_agrees (h : bus.Agrees bus') (offs : Size) (src : Nat → BitVec 8)
    (count : Size) (aw : Width) :
    Follows SameAnswer (busWriteMultiple bus offs src count aw)
      (busWriteMultiple bus' offs src count aw) := by
  cases h with
  | mk ram ram' csr mutex status status' mmu state hram =>
    cases mutex with
    | true =>
        rw [busWriteMultiple_locked rfl]
        exact follows_error _ _
    | false =>
        cases hcovers : (ramDevice .ready).covers offs with
        | true =>
            rw [busWriteMultiple_routed rfl (emulatorBus_ram hcovers),
              busWriteMultiple_routed rfl (emulatorBus_ram hcovers)]
            refine follows_ite Iff.rfl (follows_error _ _) ?_
            by_cases hready : (ramDevice ram).state = .ready
            · have hready' : (ramDevice ram').state = .ready := by
                cases hram with
                | inl heq => rw [heq, hready]
                | inr heq => rw [heq]; rfl
              rw [if_neg (fun hne => hne hready), if_neg (fun hne => hne hready')]
              refine follows_bind (write_follows ram ram' mmu state _ count aw src) ?_
              intro x y hxy
              obtain ⟨rfl, s, hdev⟩ := hxy
              rw [hdev]
              refine follows_ite Iff.rfl (follows_ok ⟨rfl, rfl, ?_⟩) (follows_ok ⟨rfl, rfl, ?_⟩)
              · exact emulatorBus_agrees s csr true .deviceFailure y.2.2
              · exact emulatorBus_agrees s csr false .ok y.2.2
            · rw [if_pos hready]
              exact follows_error _ _
        | false =>
            cases hcsr : (csrMmioDevice .ready).covers offs with
            | true =>
                rw [busWriteMultiple_routed rfl (emulatorBus_csr hcovers hcsr)]
                rw [if_neg (fun hne => hne writable)]
                by_cases hready : (csrMmioDevice csr).state = .ready
                · rw [if_neg (fun hne => hne hready)]
                  exact follows_error _ _
                · rw [if_pos hready]
                  exact follows_error _ _
            | false =>
                rw [busWriteMultiple_unmapped rfl (emulatorBus_unmapped hcovers hcsr),
                  busWriteMultiple_unmapped rfl (emulatorBus_unmapped hcovers hcsr)]
                exact follows_ok ⟨rfl, rfl, .mk ram ram' csr false _ _ mmu state hram⟩

end Access

/-- A loop that makes no turn leaves the status as it is. -/
theorem busReadStringLoop_agrees (residue : Nat → BitVec 8) (offs : Size) (fuel i : Nat)
    {bus bus' : Bus} (h : bus.Agrees bus') (hstatus : fuel = 0 → bus'.status = bus.status) :
    Follows SameAnswer (busReadStringLoop residue offs fuel i bus)
      (busReadStringLoop residue offs fuel i bus') := by
  induction fuel generalizing i bus bus' with
  | zero => exact follows_ok ⟨rfl, hstatus rfl, h⟩
  | succ fuel ih =>
      refine follows_bind (busReadSingle_agrees h (residue i) _ .byte) ?_
      intro x y hxy
      obtain ⟨r, b⟩ := x
      obtain ⟨r', b'⟩ := y
      obtain ⟨hvalue, hstatus', hagrees⟩ := hxy
      simp only at hvalue hstatus' hagrees
      subst hvalue
      refine follows_ite (by rw [hstatus']) ?_ (follows_ok ⟨rfl, hstatus', hagrees⟩)
      refine follows_bind (ih (i + 1) hagrees (fun _ => hstatus')) ?_
      intro x y hxy
      refine follows_ok ⟨?_, hxy.status, hxy.agrees⟩
      rw [hxy.value]

theorem busReadString_agrees (residue : Nat → BitVec 8) (offs : Size) {bus bus' : Bus}
    (h : bus.Agrees bus') :
    Follows SameAnswer (busReadString residue bus offs) (busReadString residue bus' offs) :=
  busReadStringLoop_agrees residue offs _ 0 h (fun hzero => by omega)

end CRiscV
