/-
Which memory accesses are carried out or trap, and which fail without a trace.
-/
import CRiscV.Refinement.Hart

namespace CRiscV

def loadCauses : List TrapCause := [.loadAddrMisaligned, .loadAccessFault, .loadPageFault]

def storeCauses : List TrapCause := [.storeAddrMisaligned, .storeAccessFault, .storePageFault]

/-- The core has entered a trap with one of the causes, and neither a register nor
RAM has changed. -/
structure Machine.Faults (m m' : Machine) (causes : List TrapCause) : Prop where
  state : m'.core.state = .trap
  trapState : m'.core.trapState = .enter
  cause : ∃ cause ∈ causes, m'.core.csr mcause = wide cause.code
  registers : m'.core.registers = m.core.registers
  memory : m.bus.mmu.SameMemory m'.bus.mmu

/-- The device that the access went to has taken part and does not report an error;
if it is RAM, the value is that of the bytes. -/
def Machine.Loaded (m m' : Machine) : Prop :=
  ∃ i dev dev', m.bus.Routes (wide m.core.decoded.memOffset) i dev ∧
    m'.bus.mmioDevices[i]? = some dev' ∧ dev'.state ≠ .error ∧
    (dev.driver = .ram → m'.core.aluOut = Bytes.ofBytes 32 m.core.decoded.memAccessWidth.size
      (m.bus.mmu.byteFrom m.core.decoded.memOffset))

def Machine.Stored (m m' : Machine) : Prop :=
  ∃ i dev dev', m.bus.Routes (wide m.core.decoded.memOffset) i dev ∧
    m'.bus.mmioDevices[i]? = some dev' ∧ dev'.state ≠ .error ∧
    (dev.driver = .ram → m'.bus.mmu = m.bus.mmu.written (Bytes.byteAt m.core.aluOut)
      m.core.decoded.memOffset m.core.decoded.memAccessWidth.bytes)

/-- The access of a core at the memory stage is carried out or traps. -/
def Machine.FaultsLoudly (m : Machine) : Prop :=
  ∀ residue, ∃ m', coreCycle residue m = .ok m' ∧
    if m.core.decoded.readMem then m.Loaded m' ∨ m.Faults m' loadCauses
    else m.Stored m' ∨ m.Faults m' storeCauses

/-- The device carries a read out. -/
def Device.TakesRead (dev : Device) (mmu : Mmu) (offs : Word) (aw : Width) : Prop :=
  match dev.driver with
  | .ram => mmu.Accepts offs aw.bytes mpermRead
  | .csr => False
  | .other handlers => ∃ f, handlers.readSingle = some f ∧ (f dev.user offs aw).2.1 ≠ .error

def Device.TakesWrite (dev : Device) (mmu : Mmu) (offs value : Word) (aw : Width) : Prop :=
  dev.perm &&& mmioWrite = mmioWrite ∧
  match dev.driver with
  | .ram => mmu.Accepts offs aw.bytes mpermWrite
  | .csr => False
  | .other handlers => ∃ f, handlers.writeSingle = some f ∧ (f dev.user offs value aw).2 ≠ .error

/-- The bus is free, and a device that the access goes to carries it out. -/
def Machine.AccessTaken (m : Machine) : Prop :=
  m.bus.mutex = false ∧ ∀ i dev, m.bus.Routes (wide m.core.decoded.memOffset) i dev →
    if m.core.decoded.readMem then
      dev.TakesRead m.bus.mmu m.core.decoded.memOffset m.core.decoded.memAccessWidth
    else
      dev.TakesWrite m.bus.mmu m.core.decoded.memOffset m.core.aluOut
        m.core.decoded.memAccessWidth

/-! ## One device -/

section Device

variable {dev : Device} {mmu : Mmu} {offs value : Word} {aw : Width}

theorem Device.readSingle_taken (residue : BitVec 8) (h : dev.TakesRead mmu offs aw) :
    ∃ r dev' mmu', dev.readSingle residue mmu offs aw = .ok (r, dev', mmu') ∧
      dev'.state ≠ .error ∧
      (dev.driver = .ram → r = Bytes.ofBytes 32 aw.size (mmu.byteFrom offs)) := by
  unfold Device.TakesRead at h
  unfold Device.readSingle
  cases hdriver : dev.driver with
  | ram =>
      simp only [hdriver] at h
      simp only [readRamSingle_accepted h]
      exact ⟨_, _, _, rfl, nofun, fun _ => rfl⟩
  | csr =>
      simp only [hdriver] at h
  | other handlers =>
      simp only [hdriver] at h
      obtain ⟨f, hf, hstate⟩ := h
      simp only [hf]
      exact ⟨_, _, _, rfl, hstate, nofun⟩

/-- A read that is not carried out leaves the device in error, if it returns. -/
theorem Device.readSingle_not_taken {residue : BitVec 8} {r : Word} {dev' : Device} {mmu' : Mmu}
    (h : ¬ dev.TakesRead mmu offs aw)
    (hread : dev.readSingle residue mmu offs aw = .ok (r, dev', mmu')) :
    dev'.state = .error := by
  unfold Device.TakesRead at h
  unfold Device.readSingle at hread
  cases hdriver : dev.driver with
  | ram =>
      simp only [hdriver] at h hread
      obtain ⟨r', state, href⟩ := readRamSingle_refused residue h
      rw [href] at hread
      cases hread
      rfl
  | csr =>
      simp only [hdriver] at hread
      cases hread
      rfl
  | other handlers =>
      simp only [hdriver] at h hread
      cases hf : handlers.readSingle with
      | none =>
          simp only [hf] at hread
          cases hread
      | some f =>
          simp only [hf] at hread
          cases hread
          by_contra hne
          exact h ⟨f, hf, hne⟩

theorem Device.writeSingle_taken (h : dev.TakesWrite mmu offs value aw) :
    ∃ dev' mmu', dev.writeSingle mmu offs value aw = .ok (dev', mmu') ∧
      dev'.state ≠ .error ∧
      (dev.driver = .ram → mmu' = mmu.written (Bytes.byteAt value) offs aw.bytes) := by
  obtain ⟨-, h⟩ := h
  unfold Device.writeSingle
  cases hdriver : dev.driver with
  | ram =>
      simp only [hdriver] at h
      simp only [writeRamSingle_accepted h]
      exact ⟨_, _, rfl, nofun, fun _ => rfl⟩
  | csr =>
      simp only [hdriver] at h
  | other handlers =>
      simp only [hdriver] at h
      obtain ⟨f, hf, hstate⟩ := h
      simp only [hf]
      exact ⟨_, _, rfl, hstate, nofun⟩

theorem Device.writeSingle_not_taken {dev' : Device} {mmu' : Mmu}
    (h : ¬ dev.TakesWrite mmu offs value aw) (hperm : dev.perm &&& mmioWrite = mmioWrite)
    (hwrite : dev.writeSingle mmu offs value aw = .ok (dev', mmu')) : dev'.state = .error := by
  unfold Device.TakesWrite at h
  unfold Device.writeSingle at hwrite
  cases hdriver : dev.driver with
  | ram =>
      simp only [hdriver, hperm, true_and] at h hwrite
      obtain ⟨state, href⟩ := writeRamSingle_refused h
      rw [href] at hwrite
      cases hwrite
      rfl
  | csr =>
      simp only [hdriver] at hwrite
      cases hwrite
      rfl
  | other handlers =>
      simp only [hdriver, hperm, true_and] at h hwrite
      cases hf : handlers.writeSingle with
      | none =>
          simp only [hf] at hwrite
          cases hwrite
      | some f =>
          simp only [hf] at hwrite
          cases hwrite
          by_contra hne
          exact h ⟨f, hf, hne⟩

end Device

/-! ## The memory stage -/

theorem Bus.served_getElem {bus : Bus} {offs : Size} {i : Nat} {dev dev' : Device} {mmu : Mmu}
    (h : bus.Routes offs i dev) : (bus.served i dev' mmu).mmioDevices[i]? = some dev' := by
  obtain ⟨hlt, -⟩ := List.getElem?_eq_some_iff.mp h.getElem
  exact List.getElem?_set_self hlt

section Stage

variable {m : Machine} {residue : BitVec 8}

/-- A load that its device does not carry out: the cycle ends in the next stage, if
it ends, with only the device to show for it. -/
theorem load_not_taken {i : Nat} {dev : Device} {m' : Machine}
    (hstate : m.core.state = .memory) (hread : m.core.decoded.readMem = true)
    (hlock : m.bus.mutex = false) (hroute : m.bus.Routes (wide m.core.decoded.memOffset) i dev)
    (hnot : ¬ dev.TakesRead m.bus.mmu m.core.decoded.memOffset m.core.decoded.memAccessWidth)
    (h : coreCycle residue m = .ok m') :
    m'.core.state = .writeback ∧
      ∃ dev', m'.bus.mmioDevices[i]? = some dev' ∧ dev'.state = .error := by
  have hserved := h
  rw [coreCycle_memory_eq hstate, memoryAccess] at hserved
  simp only [hread, if_true] at hserved
  obtain ⟨ma, haccess, -⟩ := Transition.exists_of_bind_ok hserved
  obtain ⟨⟨r, bus'⟩, hbus, -⟩ := Transition.exists_of_bind_ok haccess
  obtain ⟨dev', mmu', hdev, rfl⟩ := served_of_busReadSingle hlock hroute hbus
  rw [setWidth_wide] at hdev
  rw [coreCycle_memory hstate (memoryAccess_load hread hbus rfl) hstate] at h
  cases h
  exact ⟨rfl, dev', Bus.served_getElem hroute, Device.readSingle_not_taken hnot hdev⟩

theorem store_not_taken {i : Nat} {dev : Device} {m' : Machine}
    (hstate : m.core.state = .memory) (hread : m.core.decoded.readMem = false)
    (hwrite : m.core.decoded.writeMem = true) (hlock : m.bus.mutex = false)
    (hroute : m.bus.Routes (wide m.core.decoded.memOffset) i dev)
    (hnot : ¬ dev.TakesWrite m.bus.mmu m.core.decoded.memOffset m.core.aluOut
      m.core.decoded.memAccessWidth)
    (h : coreCycle residue m = .ok m') :
    m'.core.state = .writeback ∧
      ∃ dev', m'.bus.mmioDevices[i]? = some dev' ∧ dev'.state = .error := by
  have hserved := h
  rw [coreCycle_memory_eq hstate, memoryAccess] at hserved
  simp only [hread, hwrite, if_true, Bool.false_eq_true, if_false] at hserved
  obtain ⟨ma, haccess, -⟩ := Transition.exists_of_bind_ok hserved
  obtain ⟨bus', hbus, -⟩ := Transition.exists_of_bind_ok haccess
  obtain ⟨hperm, dev', mmu', hdev, rfl⟩ := served_of_busWriteSingle hlock hroute hbus
  rw [setWidth_wide] at hdev
  rw [coreCycle_memory hstate (memoryAccess_store hread hwrite hbus rfl) hstate] at h
  cases h
  exact ⟨rfl, dev', Bus.served_getElem hroute, Device.writeSingle_not_taken hnot hperm hdev⟩

/-- An access to an address of no device traps. -/
theorem load_unmapped (hstate : m.core.state = .memory) (hread : m.core.decoded.readMem = true)
    (hlock : m.bus.mutex = false) (hnone : m.bus.Unmapped (wide m.core.decoded.memOffset)) :
    ∃ m', coreCycle residue m = .ok m' ∧ m.Faults m' loadCauses := by
  rw [coreCycle_memory_eq hstate, memoryAccess]
  simp only [hread, if_true, busReadSingle_unmapped hlock hnone, Transition.ok_bind]
  refine ⟨_, rfl, rfl, rfl, ⟨.loadAccessFault, by decide, ?_⟩, rfl, .refl _⟩
  exact causeTrap_mcause m.core _

theorem store_unmapped (hstate : m.core.state = .memory)
    (hread : m.core.decoded.readMem = false) (hwrite : m.core.decoded.writeMem = true)
    (hlock : m.bus.mutex = false) (hnone : m.bus.Unmapped (wide m.core.decoded.memOffset)) :
    ∃ m', coreCycle residue m = .ok m' ∧ m.Faults m' storeCauses := by
  rw [coreCycle_memory_eq hstate, memoryAccess]
  simp only [hread, hwrite, if_true, Bool.false_eq_true, if_false,
    busWriteSingle_unmapped hlock hnone, Transition.ok_bind]
  refine ⟨_, rfl, rfl, rfl, ⟨.storeAccessFault, by decide, ?_⟩, rfl, .refl _⟩
  exact causeTrap_mcause m.core _

theorem load_taken {i : Nat} {dev : Device} (hstate : m.core.state = .memory)
    (hread : m.core.decoded.readMem = true) (hlock : m.bus.mutex = false)
    (hroute : m.bus.Routes (wide m.core.decoded.memOffset) i dev)
    (htaken : dev.TakesRead m.bus.mmu m.core.decoded.memOffset m.core.decoded.memAccessWidth) :
    ∃ m', coreCycle residue m = .ok m' ∧ m.Loaded m' := by
  obtain ⟨r, dev', mmu', hdev, hne, hram⟩ := Device.readSingle_taken residue htaken
  have hbus : busReadSingle residue m.bus (wide m.core.decoded.memOffset)
      m.core.decoded.memAccessWidth = .ok (r, m.bus.served i dev' mmu') := by
    rw [busReadSingle_routed hlock hroute, setWidth_wide, hdev]
    rfl
  refine ⟨_, coreCycle_memory hstate (memoryAccess_load hread hbus rfl) hstate, ?_⟩
  exact ⟨i, dev, dev', hroute, Bus.served_getElem hroute, hne, hram⟩

theorem store_taken {i : Nat} {dev : Device} (hstate : m.core.state = .memory)
    (hread : m.core.decoded.readMem = false) (hwrite : m.core.decoded.writeMem = true)
    (hlock : m.bus.mutex = false) (hroute : m.bus.Routes (wide m.core.decoded.memOffset) i dev)
    (htaken : dev.TakesWrite m.bus.mmu m.core.decoded.memOffset m.core.aluOut
      m.core.decoded.memAccessWidth) :
    ∃ m', coreCycle residue m = .ok m' ∧ m.Stored m' := by
  obtain ⟨dev', mmu', hdev, hne, hram⟩ := Device.writeSingle_taken htaken
  have hbus : busWriteSingle m.bus (wide m.core.decoded.memOffset) m.core.aluOut
      m.core.decoded.memAccessWidth = .ok (m.bus.served i dev' mmu') := by
    rw [busWriteSingle_routed hlock hroute htaken.1, setWidth_wide, hdev]
    rfl
  refine ⟨_, coreCycle_memory hstate (memoryAccess_store hread hwrite hbus rfl) hstate, ?_⟩
  exact ⟨i, dev, dev', hroute, Bus.served_getElem hroute, hne, hram⟩

theorem Machine.Loaded.not_error {m' : Machine} {i : Nat} {dev dev' : Device}
    (h : m.Loaded m') (hroute : m.bus.Routes (wide m.core.decoded.memOffset) i dev)
    (hdev' : m'.bus.mmioDevices[i]? = some dev') : dev'.state ≠ .error := by
  obtain ⟨j, d, d', hroute', hd', hne, -⟩ := h
  obtain ⟨rfl, rfl⟩ := hroute.unique hroute'
  rw [hdev'] at hd'
  cases hd'
  exact hne

theorem Machine.Stored.not_error {m' : Machine} {i : Nat} {dev dev' : Device}
    (h : m.Stored m') (hroute : m.bus.Routes (wide m.core.decoded.memOffset) i dev)
    (hdev' : m'.bus.mmioDevices[i]? = some dev') : dev'.state ≠ .error := by
  obtain ⟨j, d, d', hroute', hd', hne, -⟩ := h
  obtain ⟨rfl, rfl⟩ := hroute.unique hroute'
  rw [hdev'] at hd'
  cases hd'
  exact hne

/-- On a locked bus the cycle does not end. -/
theorem memory_locked (hstate : m.core.state = .memory)
    (hmem : m.core.decoded.readMem = true ∨ m.core.decoded.writeMem = true)
    (hlock : m.bus.mutex = true) : coreCycle residue m = .error .deadlock := by
  rw [coreCycle_memory_eq hstate, memoryAccess]
  cases hread : m.core.decoded.readMem with
  | true =>
      simp only [if_true, busReadSingle_locked hlock]
      rfl
  | false =>
      have hwrite := hmem.resolve_left (by rw [hread]; exact Bool.false_ne_true)
      simp only [hwrite, if_true, Bool.false_eq_true, if_false, busWriteSingle_locked hlock]
      rfl

/-- A memory access is carried out or traps exactly when every device that it goes
to carries it out: the bus reports a missing device and nothing else. -/
theorem memoryFault_iff (hstate : m.core.state = .memory)
    (hmem : m.core.decoded.readMem = true ∨ m.core.decoded.writeMem = true) :
    m.FaultsLoudly ↔ m.AccessTaken := by
  constructor
  · intro hloud
    obtain ⟨m', hcycle, hend⟩ := hloud 0
    have hlock : m.bus.mutex = false := by
      cases hm : m.bus.mutex with
      | false => rfl
      | true =>
          rw [memory_locked hstate hmem hm] at hcycle
          cases hcycle
    refine ⟨hlock, ?_⟩
    intro i dev hroute
    by_contra hnot
    cases hread : m.core.decoded.readMem with
    | true =>
        simp only [hread, if_true] at hend hnot
        obtain ⟨hnext, dev', hdev', herr⟩ := load_not_taken hstate hread hlock hroute hnot hcycle
        cases hend with
        | inl hloaded => exact hloaded.not_error hroute hdev' herr
        | inr hfaults =>
            rw [hfaults.state] at hnext
            cases hnext
    | false =>
        have hwrite := hmem.resolve_left (by rw [hread]; exact Bool.false_ne_true)
        simp only [hread, Bool.false_eq_true, if_false] at hend hnot
        obtain ⟨hnext, dev', hdev', herr⟩ :=
          store_not_taken hstate hread hwrite hlock hroute hnot hcycle
        cases hend with
        | inl hstored => exact hstored.not_error hroute hdev' herr
        | inr hfaults =>
            rw [hfaults.state] at hnext
            cases hnext
  · intro htaken residue
    obtain ⟨hlock, hdevs⟩ := htaken
    cases hread : m.core.decoded.readMem with
    | true =>
        simp only [hread, if_true] at hdevs ⊢
        rcases m.bus.routes_or_unmapped (wide m.core.decoded.memOffset) with ⟨i, dev, hroute⟩ | hnone
        · obtain ⟨m', hcycle, hloaded⟩ := load_taken hstate hread hlock hroute (hdevs i dev hroute)
          exact ⟨m', hcycle, Or.inl hloaded⟩
        · obtain ⟨m', hcycle, hfaults⟩ := load_unmapped hstate hread hlock hnone
          exact ⟨m', hcycle, Or.inr hfaults⟩
    | false =>
        have hwrite := hmem.resolve_left (by rw [hread]; exact Bool.false_ne_true)
        simp only [hread, Bool.false_eq_true, if_false] at hdevs ⊢
        rcases m.bus.routes_or_unmapped (wide m.core.decoded.memOffset) with ⟨i, dev, hroute⟩ | hnone
        · obtain ⟨m', hcycle, hstored⟩ :=
            store_taken hstate hread hwrite hlock hroute (hdevs i dev hroute)
          exact ⟨m', hcycle, Or.inl hstored⟩
        · obtain ⟨m', hcycle, hfaults⟩ := store_unmapped hstate hread hwrite hlock hnone
          exact ⟨m', hcycle, Or.inr hfaults⟩

end Stage

/-- At the memory stage of a `lw` from the start of RAM, all of which has one
permission. -/
def loadingMachine (perm : Perm) : Machine :=
  { core := { coreInit cpuInitCore 0 ramStart with
      state := .memory
      decoded := { cpuInitCore.decoded with
        memOffset := ramStart, memAccessWidth := .word, writeRd := true, readMem := true } }
    bus := mainBus { programMmu [] with perm := fun _ => perm }
    calls := [] }

theorem loadingMachine_loud : (loadingMachine mpermRead).FaultsLoudly := by
  have hroute : (loadingMachine mpermRead).bus.Routes (wide ramStart) 0 (ramDevice .ready) :=
    mainBus_routes _ (by decide)
  refine (memoryFault_iff rfl (Or.inl rfl)).mpr ⟨rfl, ?_⟩
  intro i dev hroute'
  obtain ⟨-, rfl⟩ := hroute.unique hroute'
  show Mmu.Accepts _ _ _ _
  exact ⟨by decide, by decide⟩

/-- A load of bytes that have not been written since they were allocated. -/
theorem loadingMachine_silent :
    (loadingMachine (mpermWrite ||| mpermRaw)).core.state = .memory ∧
      (loadingMachine (mpermWrite ||| mpermRaw)).core.decoded.readMem = true ∧
      ¬ (loadingMachine (mpermWrite ||| mpermRaw)).FaultsLoudly := by
  refine ⟨rfl, rfl, ?_⟩
  intro hloud
  have hroute : (loadingMachine (mpermWrite ||| mpermRaw)).bus.Routes (wide ramStart) 0
      (ramDevice .ready) := mainBus_routes _ (by decide)
  obtain ⟨m', hcycle, hend⟩ := hloud 0
  obtain ⟨hnext, dev', hdev', herr⟩ := load_not_taken rfl rfl rfl hroute
    (fun h => absurd h.2 (by decide)) hcycle
  cases hend with
  | inl hloaded => exact hloaded.not_error hroute hdev' herr
  | inr hfaults =>
      rw [hfaults.state] at hnext
      cases hnext

end CRiscV
