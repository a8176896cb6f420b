/-
Block transfers over the emulator's bus: what they return and leave, by the device that
the address goes to and by whether the MMU accepts the range.
-/
import CRiscV.Bus.Run

namespace CRiscV

section Block

variable (ram csr : DeviceState) (status : BusStatus) (buf : Nat → BitVec 8) {mmu : Mmu}
  {a count : Size} {aw : Width}

/-! ## Writes -/

/-- RAM has to be ready for a block. -/
theorem blockWrite_notReady (hram : (ramDevice .ready).covers a = true) (hne : ram ≠ .ready) :
    busWriteMultiple (emulatorBus ram csr false status mmu) a buf count aw = .error .assertion := by
  have hstate : (ramDevice ram).state ≠ .ready := hne
  rw [busWriteMultiple_routed rfl (emulatorBus_ram hram), if_neg (fun h => h writable),
    if_pos hstate]

theorem blockWrite_ready (hram : (ramDevice .ready).covers a = true) :
    busWriteMultiple (emulatorBus .ready csr false status mmu) a buf count aw =
      writeRam (ramDevice .ready) mmu (a.setWidth 32) buf count aw >>= fun x =>
        if x.1 ≠ count then
          .ok (0, { mmioDevices := [x.2.1, csrMmioDevice csr]
                    mutex := true
                    status := .deviceFailure
                    mmu := x.2.2 })
        else .ok (count, { mmioDevices := [x.2.1, csrMmioDevice csr]
                           mutex := false
                           status := .ok
                           mmu := x.2.2 }) := by
  have hstate : ¬ (ramDevice .ready).state ≠ .ready := fun h => h rfl
  rw [busWriteMultiple_routed rfl (emulatorBus_ram hram), if_neg (fun h => h writable),
    if_neg hstate]
  rfl

/-- RAM takes the whole range. -/
theorem writeRam_block_accepted (dev : Device) {v : Vaddr}
    (hn : (count * widthMult aw).toNat < 2 ^ 63)
    (h : mmu.Accepts v (count * widthMult aw) mpermWrite) :
    writeRam dev mmu v buf count aw =
      .ok (count * widthMult aw, { dev with state := .ready },
        mmu.written buf v (count * widthMult aw)) := by
  unfold writeRam
  rw [mmuWriteFrom_accepted hn h]
  rfl

/-- RAM takes nothing. -/
theorem writeRam_block_refused (dev : Device) {v : Vaddr}
    (hn : (count * widthMult aw).toNat < 2 ^ 63)
    (h : ¬ mmu.Accepts v (count * widthMult aw) mpermWrite) :
    ∃ state, state ≠ .ok ∧ writeRam dev mmu v buf count aw =
      .ok (0, { dev with state := .error }, { mmu with state := state }) := by
  obtain ⟨state, hne, hwrite⟩ := @mmuWriteFrom_refused _ buf _ _ hn h
  refine ⟨state, hne, ?_⟩
  unfold writeRam
  rw [hwrite, Transition.ok_bind]
  exact if_neg hne

theorem blockWrite_accepted (hram : (ramDevice .ready).covers a = true)
    (hn : (count * widthMult aw).toNat < 2 ^ 63)
    (h : mmu.Accepts (a.setWidth 32) (count * widthMult aw) mpermWrite)
    (hcount : count * widthMult aw = count) :
    busWriteMultiple (emulatorBus .ready csr false status mmu) a buf count aw =
      .ok (count, emulatorBus .ready csr false .ok
        (mmu.written buf (a.setWidth 32) (count * widthMult aw))) := by
  have hwhole : ¬ count * widthMult aw ≠ count := fun hne => hne hcount
  rw [blockWrite_ready csr status buf hram, writeRam_block_accepted buf _ hn h,
    Transition.ok_bind, if_neg hwhole]
  rfl

/-- The number of bytes is taken for a number of elements, and the bus stays locked. -/
theorem blockWrite_miscounted (hram : (ramDevice .ready).covers a = true)
    (hn : (count * widthMult aw).toNat < 2 ^ 63)
    (h : mmu.Accepts (a.setWidth 32) (count * widthMult aw) mpermWrite)
    (hcount : count * widthMult aw ≠ count) :
    busWriteMultiple (emulatorBus .ready csr false status mmu) a buf count aw =
      .ok (0, emulatorBus .ready csr true .deviceFailure
        (mmu.written buf (a.setWidth 32) (count * widthMult aw))) := by
  rw [blockWrite_ready csr status buf hram, writeRam_block_accepted buf _ hn h,
    Transition.ok_bind, if_pos hcount]
  rfl

theorem blockWrite_refused (hram : (ramDevice .ready).covers a = true)
    (hn : (count * widthMult aw).toNat < 2 ^ 63)
    (h : ¬ mmu.Accepts (a.setWidth 32) (count * widthMult aw) mpermWrite) :
    ∃ state, busWriteMultiple (emulatorBus .ready csr false status mmu) a buf count aw =
      if count = 0 then .ok (0, emulatorBus .error csr false .ok { mmu with state := state })
      else .ok (0, emulatorBus .error csr true .deviceFailure { mmu with state := state }) := by
  obtain ⟨state, -, hwrite⟩ := writeRam_block_refused buf (ramDevice .ready) hn h
  refine ⟨state, ?_⟩
  rw [blockWrite_ready csr status buf hram, hwrite, Transition.ok_bind]
  by_cases hzero : count = 0
  · have hnone : ¬ (0 : Size) ≠ count := fun hne => hne hzero.symm
    rw [if_neg hnone, if_pos hzero, hzero]
    rfl
  · have hsome : (0 : Size) ≠ count := fun heq => hzero heq.symm
    rw [if_pos hsome, if_neg hzero]
    rfl

/-- The CSR device takes no blocks. -/
theorem blockWrite_csr (hram : (ramDevice .ready).covers a = false)
    (hcsr : (csrMmioDevice .ready).covers a = true) :
    busWriteMultiple (emulatorBus ram csr false status mmu) a buf count aw =
      if csr = .ready then .error .nullHandler else .error .assertion := by
  rw [busWriteMultiple_routed rfl (emulatorBus_csr hram hcsr), if_neg (fun h => h writable)]
  by_cases hready : csr = .ready
  · have hstate : ¬ (csrMmioDevice csr).state ≠ .ready := fun h => h hready
    rw [if_neg hstate, if_pos hready]
    rfl
  · have hstate : (csrMmioDevice csr).state ≠ .ready := hready
    rw [if_pos hstate, if_neg hready]

theorem blockWrite_unmapped (hram : (ramDevice .ready).covers a = false)
    (hcsr : (csrMmioDevice .ready).covers a = false) :
    busWriteMultiple (emulatorBus ram csr false status mmu) a buf count aw =
      .ok (0, emulatorBus ram csr false .addressNotFound mmu) :=
  busWriteMultiple_unmapped rfl (emulatorBus_unmapped hram hcsr)

/-! ## Reads -/

theorem blockRead_accepted (hram : (ramDevice .ready).covers a = true)
    (h : mmu.Accepts (a.setWidth 32) (count * widthMult aw) mpermRead) :
    busReadMultiple (emulatorBus ram csr false status mmu) a buf count aw =
      .ok (count, Span.copy 0 (count * widthMult aw).toNat (mmu.byteFrom (a.setWidth 32)) buf,
        emulatorBus .ready csr false .ok { mmu with state := .ok }) := by
  have hread : (ramDevice ram).read (emulatorBus ram csr false status mmu).mmu (a.setWidth 32) buf
      count aw = .ok (readRam (ramDevice ram) mmu (a.setWidth 32) buf count aw) := rfl
  have hwhole : ¬ count ≠ count := fun hne => hne rfl
  rw [busReadMultiple_routed rfl (emulatorBus_ram hram), hread, readRam_block buf h,
    Transition.ok_bind, if_neg hwhole]
  rfl

theorem blockRead_refused (hram : (ramDevice .ready).covers a = true)
    (h : ¬ mmu.Accepts (a.setWidth 32) (count * widthMult aw) mpermRead) :
    ∃ state, busReadMultiple (emulatorBus ram csr false status mmu) a buf count aw =
      if count = 0 then .ok (0, buf, emulatorBus .error csr false .ok { mmu with state := state })
      else
        .ok (0, buf, emulatorBus .error csr false .deviceFailure { mmu with state := state }) := by
  obtain ⟨state, hread⟩ := readRam_refused (ramDevice ram) buf h
  have hserve : (ramDevice ram).read (emulatorBus ram csr false status mmu).mmu (a.setWidth 32) buf
      count aw = .ok (readRam (ramDevice ram) mmu (a.setWidth 32) buf count aw) := rfl
  refine ⟨state, ?_⟩
  rw [busReadMultiple_routed rfl (emulatorBus_ram hram), hserve, hread, Transition.ok_bind]
  by_cases hzero : count = 0
  · have hnone : ¬ (0 : Size) ≠ count := fun hne => hne hzero.symm
    rw [if_neg hnone, if_pos hzero, hzero]
    rfl
  · have hsome : (0 : Size) ≠ count := fun heq => hzero heq.symm
    rw [if_pos hsome, if_neg hzero]
    rfl

theorem blockRead_csr (hram : (ramDevice .ready).covers a = false)
    (hcsr : (csrMmioDevice .ready).covers a = true) :
    busReadMultiple (emulatorBus ram csr false status mmu) a buf count aw =
      .error .nullHandler := by
  rw [busReadMultiple_routed rfl (emulatorBus_csr hram hcsr)]
  rfl

theorem blockRead_unmapped (hram : (ramDevice .ready).covers a = false)
    (hcsr : (csrMmioDevice .ready).covers a = false) :
    busReadMultiple (emulatorBus ram csr false status mmu) a buf count aw =
      .ok (0, buf, emulatorBus ram csr false .addressNotFound mmu) :=
  busReadMultiple_unmapped rfl (emulatorBus_unmapped hram hcsr)

end Block

/-! ## Every outcome -/

section Outcome

variable {ram csr : DeviceState} {mutex : Bool} {status : BusStatus} {buf : Nat → BitVec 8}
  {mmu : Mmu} {a count : Size} {aw : Width}

/-- A call that returns has found the bus free and a device that takes blocks. -/
theorem blockWrite_returns {x : Size × Bus}
    (h : busWriteMultiple (emulatorBus ram csr mutex status mmu) a buf count aw = .ok x) :
    mutex = false ∧ ((ramDevice .ready).covers a = true → ram = .ready) ∧
      (csrMmioDevice .ready).covers a = false := by
  have hfree : mutex = false := by
    cases mutex with
    | false => rfl
    | true =>
        rw [busWriteMultiple_locked rfl] at h
        cases h
  subst hfree
  refine ⟨rfl, ?_, ?_⟩
  · intro hram
    by_contra hne
    rw [blockWrite_notReady ram csr status buf hram hne] at h
    cases h
  · by_contra hcsr
    rw [Bool.not_eq_false] at hcsr
    rw [blockWrite_csr ram csr status buf (ram_not_csr hcsr) hcsr] at h
    split_ifs at h

/-- A read may find RAM in any state. -/
theorem blockRead_returned {x : Size × (Nat → BitVec 8) × Bus}
    (h : busReadMultiple (emulatorBus ram csr mutex status mmu) a buf count aw = .ok x) :
    mutex = false ∧ (csrMmioDevice .ready).covers a = false := by
  have hfree : mutex = false := by
    cases mutex with
    | false => rfl
    | true =>
        rw [busReadMultiple_locked rfl] at h
        cases h
  subst hfree
  refine ⟨rfl, ?_⟩
  by_contra hcsr
  rw [Bool.not_eq_false] at hcsr
  rw [blockRead_csr ram csr status buf (ram_not_csr hcsr) hcsr] at h
  cases h

theorem blockRead_returns (ram csr : DeviceState) (status : BusStatus) (buf : Nat → BitVec 8)
    (hram : (ramDevice .ready).covers a = true) :
    ∃ x, busReadMultiple (emulatorBus ram csr false status mmu) a buf count aw = .ok x := by
  by_cases haccepts : mmu.Accepts (a.setWidth 32) (count * widthMult aw) mpermRead
  · exact ⟨_, blockRead_accepted ram csr status buf hram haccepts⟩
  · obtain ⟨state, hread⟩ := blockRead_refused ram csr status buf hram haccepts
    rw [hread]
    split_ifs
    · exact ⟨_, rfl⟩
    · exact ⟨_, rfl⟩

/-- No read of a block fails an assertion of the source. -/
theorem blockRead_not_assertion {α : Type} {f : Size × (Nat → BitVec 8) × Bus → α} :
    (busReadMultiple (emulatorBus ram csr mutex status mmu) a buf count aw >>= fun x =>
      (.ok (f x) : Except Abort α)) ≠ .error .assertion := by
  intro hasserts
  cases mutex with
  | true =>
      rw [busReadMultiple_locked rfl] at hasserts
      cases hasserts
  | false =>
      cases hram : (ramDevice .ready).covers a with
      | true =>
          obtain ⟨x, hread⟩ := blockRead_returns ram csr status buf hram
          rw [hread] at hasserts
          cases hasserts
      | false =>
          cases hcsr : (csrMmioDevice .ready).covers a with
          | true =>
              rw [blockRead_csr ram csr status buf hram hcsr] at hasserts
              cases hasserts
          | false =>
              rw [blockRead_unmapped ram csr status buf hram hcsr] at hasserts
              cases hasserts

end Outcome

end CRiscV
