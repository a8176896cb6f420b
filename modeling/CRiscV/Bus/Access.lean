/-
Accesses over the bus: which device an address goes to, what a read leaves alone,
and the value or the effect of a single access that RAM accepts.
-/
import CRiscV.Bus.Model
import CRiscV.Mmu.Access

namespace CRiscV

/-- The part of a device that no access changes. -/
def Device.wiring (dev : Device) : Driver × Word × Word × BitVec 32 :=
  (dev.driver, dev.baseAddress, dev.size, dev.perm)

def Bus.wiring (bus : Bus) : List (Driver × Word × Word × BitVec 32) :=
  bus.mmioDevices.map Device.wiring

/-- The bus hands the address to the device at this position. -/
def Bus.Routes (bus : Bus) (offs : Size) (i : Nat) (dev : Device) : Prop :=
  (busFindDevice bus offs).1 = some (i, dev)

/-- A device that no bus address goes to. -/
def Bus.Unmapped (bus : Bus) (offs : Size) : Prop := (busFindDevice bus offs).1 = none

def Device.IsRam (dev : Device) : Prop :=
  dev.driver = .ram ∧ dev.perm = mmioRead ||| mmioWrite

/-- The `n` bytes from `a` on are addressable and lie in RAM: the bus hands the
access to RAM, and the memory behind it, which is one object of the host, holds
them. -/
structure Bus.InRam (bus : Bus) (a : Vaddr) (n : Nat) : Prop where
  routed : ∃ i dev, bus.Routes (wide a) i dev ∧ dev.IsRam
  held : bus.mmu.Holds a n
  sized : bus.mmu.size.toNat < 2 ^ 63
  addressed : a.toNat + n ≤ 2 ^ 32

/-- The number of bytes of an access. -/
def Width.size : Width → Nat
  | .byte => 1
  | .halfword => 2
  | .word => 4

/-! ## Routing -/

theorem busFindDevice_fst (bus : Bus) (offs : Size) :
    (busFindDevice bus offs).1 =
      (bus.mmioDevices.findIdx? (·.covers offs)).bind fun i =>
        bus.mmioDevices[i]?.map fun dev => (i, dev) := by
  unfold busFindDevice
  cases hidx : bus.mmioDevices.findIdx? (·.covers offs) with
  | none => rfl
  | some i =>
      cases hget : bus.mmioDevices[i]? with
      | none => simp only [hget, Option.bind_some, Option.map_none]
      | some dev => simp only [hget, Option.bind_some, Option.map_some]

/-- The lock and the status have no part in routing. -/
theorem Bus.Routes.congr {bus bus' : Bus} (hdevs : bus'.mmioDevices = bus.mmioDevices)
    {offs : Size} {i : Nat} {dev : Device} (h : bus.Routes offs i dev) :
    bus'.Routes offs i dev := by
  unfold Bus.Routes at h ⊢
  rwa [busFindDevice_fst, hdevs, ← busFindDevice_fst]

theorem Bus.Unmapped.congr {bus bus' : Bus} (hdevs : bus'.mmioDevices = bus.mmioDevices)
    {offs : Size} (h : bus.Unmapped offs) : bus'.Unmapped offs := by
  unfold Bus.Unmapped at h ⊢
  rwa [busFindDevice_fst, hdevs, ← busFindDevice_fst]

theorem busFindDevice_routes {bus : Bus} {offs : Size} {i : Nat} {dev : Device}
    (h : bus.Routes offs i dev) :
    busFindDevice bus offs = (some (i, dev), { bus with status := .ok }) := by
  unfold Bus.Routes busFindDevice at h
  unfold busFindDevice
  cases hidx : bus.mmioDevices.findIdx? (·.covers offs) with
  | none => rw [hidx] at h; cases h
  | some k =>
      rw [hidx] at h
      cases hget : bus.mmioDevices[k]? with
      | none => simp only [hget] at h; cases h
      | some d =>
          simp only [hget] at h ⊢
          cases h
          rfl

theorem busFindDevice_unmapped {bus : Bus} {offs : Size} (h : bus.Unmapped offs) :
    busFindDevice bus offs = (none, { bus with status := .addressNotFound }) := by
  unfold Bus.Unmapped busFindDevice at h
  unfold busFindDevice
  cases hidx : bus.mmioDevices.findIdx? (·.covers offs) with
  | none => rfl
  | some k =>
      rw [hidx] at h
      cases hget : bus.mmioDevices[k]? with
      | none => simp only [hget]
      | some d => simp only [hget] at h; cases h

theorem Bus.routes_or_unmapped (bus : Bus) (offs : Size) :
    (∃ i dev, bus.Routes offs i dev) ∨ bus.Unmapped offs := by
  unfold Bus.Routes Bus.Unmapped
  cases h : (busFindDevice bus offs).1 with
  | none => exact Or.inr rfl
  | some p => exact Or.inl ⟨p.1, p.2, rfl⟩

theorem Bus.Routes.getElem {bus : Bus} {offs : Size} {i : Nat} {dev : Device}
    (h : bus.Routes offs i dev) : bus.mmioDevices[i]? = some dev := by
  rw [Bus.Routes, busFindDevice_fst] at h
  obtain ⟨k, -, hk⟩ := Option.bind_eq_some_iff.mp h
  obtain ⟨d, hget, heq⟩ := Option.map_eq_some_iff.mp hk
  cases heq
  exact hget

/-- An address goes to one device at most. -/
theorem Bus.Routes.unique {bus : Bus} {offs : Size} {i j : Nat} {dev dev' : Device}
    (h : bus.Routes offs i dev) (h' : bus.Routes offs j dev') : i = j ∧ dev = dev' := by
  unfold Bus.Routes at h h'
  rw [h] at h'
  cases h'
  exact ⟨rfl, rfl⟩

theorem Bus.Routes.mapped {bus : Bus} {offs : Size} {i : Nat} {dev : Device}
    (h : bus.Routes offs i dev) : ¬ bus.Unmapped offs := by
  unfold Bus.Routes at h
  unfold Bus.Unmapped
  rw [h]
  exact nofun

/-- Routing looks at the wiring only. -/
theorem Bus.Routes.rewire {bus bus' : Bus} (hw : bus'.wiring = bus.wiring) {offs : Size}
    {i : Nat} {dev : Device} (h : bus.Routes offs i dev) :
    ∃ dev', bus'.Routes offs i dev' ∧ dev'.wiring = dev.wiring := by
  have hcovers : ∀ l : List Device, l.findIdx? (·.covers offs) =
      (l.map Device.wiring).findIdx? (fun w =>
        wide w.2.1 ≤ offs && wide (w.2.1 + w.2.2.1) > offs) := by
    intro l
    rw [List.findIdx?_map]
    rfl
  have hidx : bus'.mmioDevices.findIdx? (·.covers offs) =
      bus.mmioDevices.findIdx? (·.covers offs) := by
    rw [hcovers, hcovers]
    exact congrArg _ hw
  have hmap : (bus'.mmioDevices.map Device.wiring)[i]? = some dev.wiring := by
    rw [show bus'.mmioDevices.map Device.wiring = bus.mmioDevices.map Device.wiring from hw,
      List.getElem?_map, h.getElem]
    rfl
  rw [List.getElem?_map] at hmap
  obtain ⟨dev', hdev', hwdev⟩ := Option.map_eq_some_iff.mp hmap
  refine ⟨dev', ?_, hwdev⟩
  unfold Bus.Routes at h ⊢
  rw [busFindDevice_fst] at h ⊢
  obtain ⟨k, hfound, hk⟩ := Option.bind_eq_some_iff.mp h
  obtain ⟨d, -, heq⟩ := Option.map_eq_some_iff.mp hk
  cases heq
  rw [hidx, hfound, Option.bind_some, hdev', Option.map_some]

theorem Bus.serve_wiring {bus : Bus} {offs : Size} {i : Nat} {dev dev' : Device}
    (h : bus.Routes offs i dev) (hw : dev'.wiring = dev.wiring) (mmu : Mmu) :
    (bus.serve i dev' mmu).wiring = bus.wiring := by
  have hget := h.getElem
  obtain ⟨hlt, hdev⟩ := List.getElem?_eq_some_iff.mp hget
  have hlen : i < (bus.mmioDevices.map Device.wiring).length := by
    rw [List.length_map]
    exact hlt
  have hentry : (bus.mmioDevices.map Device.wiring)[i] = dev.wiring := by
    rw [List.getElem_map, hdev]
  show (bus.mmioDevices.set i dev').map Device.wiring = bus.mmioDevices.map Device.wiring
  rw [List.map_set, hw, ← hentry, List.set_getElem_self]

theorem Device.IsRam.rewire {dev dev' : Device} (hw : dev'.wiring = dev.wiring)
    (h : dev.IsRam) : dev'.IsRam := by
  unfold Device.wiring at hw
  injection hw with h1 h2
  injection h2 with h2 h3
  injection h3 with h3 h4
  exact ⟨h1.trans h.1, h4.trans h.2⟩

/-! ## What a read leaves alone -/

/-- `mmu'` differs from `mmu` in the state flag at most. -/
def Mmu.SameMemory (mmu mmu' : Mmu) : Prop := ∃ state, mmu' = { mmu with state := state }

theorem Mmu.SameMemory.refl (mmu : Mmu) : mmu.SameMemory mmu := ⟨mmu.state, rfl⟩

theorem Mmu.SameMemory.trans {mmu mmu' mmu'' : Mmu} (h : mmu.SameMemory mmu')
    (h' : mmu'.SameMemory mmu'') : mmu.SameMemory mmu'' := by
  obtain ⟨state, rfl⟩ := h
  obtain ⟨state', rfl⟩ := h'
  exact ⟨state', rfl⟩

/-- `bus'` is the released bus `bus` after reads. -/
structure Bus.AfterRead (bus bus' : Bus) : Prop where
  wiring : bus'.wiring = bus.wiring
  memory : bus.mmu.SameMemory bus'.mmu
  unlocked : bus'.mutex = false

theorem readRam_frame (ram : Device) (mmu : Mmu) (offs : Word) (buf : Nat → BitVec 8)
    (count : Size) (aw : Width) :
    (readRam ram mmu offs buf count aw).2.2.1.wiring = ram.wiring ∧
      mmu.SameMemory (readRam ram mmu offs buf count aw).2.2.2 := by
  have hmmu := mmuReadInto_mmu mmu buf offs (count * widthMult aw)
  unfold readRam
  simp only
  split
  · exact ⟨rfl, hmmu⟩
  · exact ⟨rfl, hmmu⟩

theorem readRamSingle_frame (residue : BitVec 8) (ram : Device) (mmu : Mmu) (offs : Word)
    (aw : Width) :
    (readRamSingle residue ram mmu offs aw).2.1.wiring = ram.wiring ∧
      mmu.SameMemory (readRamSingle residue ram mmu offs aw).2.2 := by
  cases aw with
  | byte => exact readRam_frame ram mmu offs (fun _ => residue) 1 .byte
  | halfword => exact readRam_frame ram mmu offs (fun _ => 0) 1 .halfword
  | word => exact readRam_frame ram mmu offs (fun _ => 0) 1 .word

theorem Device.readSingle_frame {residue : BitVec 8} {dev dev' : Device} {mmu mmu' : Mmu}
    {offs r : Word} {aw : Width} (h : dev.readSingle residue mmu offs aw = .ok (r, dev', mmu')) :
    dev'.wiring = dev.wiring ∧ mmu.SameMemory mmu' := by
  unfold Device.readSingle at h
  split at h
  · have hframe := readRamSingle_frame residue dev mmu offs aw
    injection h with h
    rw [h] at hframe
    exact hframe
  · cases h
    exact ⟨rfl, .refl mmu⟩
  · split at h
    · cases h
    · cases h
      exact ⟨rfl, .refl mmu⟩

theorem Device.read_frame {dev dev' : Device} {mmu mmu' : Mmu} {offs : Word}
    {dst dst' : Nat → BitVec 8} {count ret : Size} {aw : Width}
    (h : dev.read mmu offs dst count aw = .ok (ret, dst', dev', mmu')) :
    dev'.wiring = dev.wiring ∧ mmu.SameMemory mmu' := by
  unfold Device.read at h
  split at h
  · have hframe := readRam_frame dev mmu offs dst count aw
    injection h with h
    rw [h] at hframe
    exact hframe
  · cases h
  · split at h
    · cases h
    · cases h
      exact ⟨rfl, .refl mmu⟩

/-- Only an unlocked bus can be locked. -/
theorem busLock_eq_ok {bus bus' : Bus} (h : busLock bus = .ok bus') :
    bus.mutex = false ∧ bus' = { bus with mutex := true } := by
  unfold busLock at h
  cases hm : bus.mutex with
  | true => rw [hm] at h; cases h
  | false => rw [hm] at h; cases h; exact ⟨rfl, rfl⟩

theorem busLock_of_unlocked {bus : Bus} (h : bus.mutex = false) :
    busLock bus = .ok { bus with mutex := true } := by
  rw [busLock, h]
  rfl

theorem busReadMultiple_frame {bus bus' : Bus} {offs : Size} {dst dst' : Nat → BitVec 8}
    {count n : Size} {aw : Width}
    (h : busReadMultiple bus offs dst count aw = .ok (n, dst', bus')) : bus.AfterRead bus' := by
  unfold busReadMultiple at h
  obtain ⟨locked, hlock, h⟩ := Transition.exists_of_bind_ok h
  obtain ⟨-, rfl⟩ := busLock_eq_ok hlock
  rcases Bus.routes_or_unmapped { bus with mutex := true } offs with ⟨i, dev, hroute⟩ | hnone
  · rw [busFindDevice_routes hroute] at h
    obtain ⟨⟨ret, out, dev', mmu'⟩, hread, h⟩ := Transition.exists_of_bind_ok h
    obtain ⟨hw, hmem⟩ := Device.read_frame hread
    have hserve := Bus.serve_wiring hroute hw mmu'
    simp only at h
    by_cases hret : ret ≠ count
    · rw [if_pos hret] at h
      cases h
      exact ⟨hserve, hmem, rfl⟩
    · rw [if_neg hret] at h
      cases h
      exact ⟨hserve, hmem, rfl⟩
  · rw [busFindDevice_unmapped hnone] at h
    cases h
    exact ⟨rfl, .refl _, rfl⟩

/-- RAM stays where it was. -/
theorem Bus.AfterRead.inRam {bus bus' : Bus} (h : bus.AfterRead bus') {a : Vaddr} {n : Nat}
    (hram : bus.InRam a n) : bus'.InRam a n := by
  obtain ⟨i, dev, hroute, hdev⟩ := hram.routed
  obtain ⟨dev', hroute', hw⟩ := hroute.rewire h.wiring
  obtain ⟨state, hmmu⟩ := h.memory
  refine ⟨⟨i, dev', hroute', hdev.rewire hw⟩, ?_, ?_, hram.addressed⟩
  · rw [hmmu]
    exact hram.held
  · rw [hmmu]
    exact hram.sized

/-! ## Single accesses that RAM accepts -/

/-- The number of bytes of an access as a `size_t`. -/
def Width.bytes (aw : Width) : Size := 1 * widthMult aw

theorem widthMult_toNat (aw : Width) : (widthMult aw).toNat = aw.size := by
  cases aw with
  | byte | halfword | word => rfl

theorem Width.bytes_toNat (aw : Width) : aw.bytes.toNat = aw.size := by
  cases aw <;> decide

theorem Width.bytes_lt (aw : Width) : aw.bytes.toNat < 2 ^ 63 := by
  cases aw <;> decide

theorem readRam_block {ram : Device} {mmu : Mmu} {offs : Word} {count : Size} {aw : Width}
    (buf : Nat → BitVec 8) (haccepts : mmu.Accepts offs (count * widthMult aw) mpermRead) :
    readRam ram mmu offs buf count aw =
      (count, Span.copy 0 (count * widthMult aw).toNat (mmu.byteFrom offs) buf,
        { ram with state := .ready }, { mmu with state := .ok }) := by
  unfold readRam
  rw [mmuReadInto_accepted haccepts]
  exact if_pos ⟨rfl, rfl⟩

theorem readRam_accepted {ram : Device} {mmu : Mmu} {offs : Word} {aw : Width}
    (buf : Nat → BitVec 8) (haccepts : mmu.Accepts offs aw.bytes mpermRead) :
    readRam ram mmu offs buf 1 aw =
      (1, Span.copy 0 aw.size (mmu.byteFrom offs) buf, { ram with state := .ready },
        { mmu with state := .ok }) := by
  rw [readRam_block buf haccepts, ← Width.bytes, aw.bytes_toNat]

theorem readRamSingle_accepted {residue : BitVec 8} {ram : Device} {mmu : Mmu} {offs : Word}
    {aw : Width} (haccepts : mmu.Accepts offs aw.bytes mpermRead) :
    readRamSingle residue ram mmu offs aw =
      (Bytes.ofBytes 32 aw.size (mmu.byteFrom offs), { ram with state := .ready },
        { mmu with state := .ok }) := by
  cases aw with
  | byte =>
      simp only [readRamSingle, readRam_accepted (fun _ => residue) haccepts, Width.size,
        Bytes.ofBytes_one]
      rw [Span.copy_of_mem (Nat.le_refl 0) (by decide)]
  | halfword =>
      have htrim : Bytes.ofBytes 32 4 (Span.copy 0 2 (mmu.byteFrom offs) fun _ => 0) =
          Bytes.ofBytes 32 2 (Span.copy 0 2 (mmu.byteFrom offs) fun _ => 0) :=
        Bytes.ofBytes_of_zero_above (by decide)
          (fun i hi _ => Span.copy_of_not_mem (Or.inr hi))
      simp only [readRamSingle, readRam_accepted (fun _ => 0) haccepts, Width.size]
      rw [htrim, Bytes.ofBytes_congr (fun i hi => Span.copy_of_mem (Nat.zero_le i) hi)]
      rfl
  | word =>
      simp only [readRamSingle, readRam_accepted (fun _ => 0) haccepts, Width.size]
      rw [Bytes.ofBytes_congr (fun i hi => Span.copy_of_mem (Nat.zero_le i) hi)]
      rfl

theorem writeRam_accepted {ram : Device} {mmu : Mmu} {offs : Word} {aw : Width}
    (buf : Nat → BitVec 8) (haccepts : mmu.Accepts offs aw.bytes mpermWrite) :
    writeRam ram mmu offs buf 1 aw =
      .ok (aw.bytes, { ram with state := .ready }, mmu.written buf offs aw.bytes) := by
  unfold writeRam
  rw [← Width.bytes, mmuWriteFrom_accepted aw.bytes_lt haccepts]
  rfl

theorem writeRamSingle_accepted {ram : Device} {mmu : Mmu} {offs value : Word} {aw : Width}
    (haccepts : mmu.Accepts offs aw.bytes mpermWrite) :
    writeRamSingle ram mmu offs value aw =
      .ok ({ ram with state := .ready }, mmu.written (Bytes.byteAt value) offs aw.bytes) := by
  have hlow : ∀ {m : Nat} {mask : Word}, mask.setWidth m = BitVec.allOnes m →
      8 * aw.size ≤ m → mmu.written (Bytes.byteAt ((value &&& mask).setWidth m)) offs aw.bytes =
        mmu.written (Bytes.byteAt value) offs aw.bytes := by
    intro m mask hmask hm
    apply Mmu.written_congr
    intro i hi
    rw [Width.bytes_toNat] at hi
    exact Bytes.byteAt_truncated value mask hmask (by omega)
  unfold writeRamSingle
  cases aw with
  | byte =>
      simp only [writeRam_accepted _ haccepts, Transition.ok_bind]
      rw [hlow (by decide) (by decide)]
      rfl
  | halfword =>
      simp only [writeRam_accepted _ haccepts, Transition.ok_bind]
      rw [hlow (by decide) (by decide)]
      rfl
  | word =>
      simp only [writeRam_accepted _ haccepts, Transition.ok_bind]
      rfl

/-! ## Single accesses that RAM refuses -/

theorem readRam_refused (ram : Device) {mmu : Mmu} {offs : Word} {count : Size} {aw : Width}
    (buf : Nat → BitVec 8) (hrefuses : ¬ mmu.Accepts offs (count * widthMult aw) mpermRead) :
    ∃ state, readRam ram mmu offs buf count aw =
      (0, buf, { ram with state := .error }, { mmu with state := state }) := by
  obtain ⟨state, hne, hread⟩ := mmuReadInto_refused hrefuses
  refine ⟨state, ?_⟩
  unfold readRam
  rw [hread]
  exact if_neg (fun h => hne h.1)

theorem readRamSingle_refused (residue : BitVec 8) {ram : Device} {mmu : Mmu} {offs : Word}
    {aw : Width} (hrefuses : ¬ mmu.Accepts offs aw.bytes mpermRead) :
    ∃ r state, readRamSingle residue ram mmu offs aw =
      (r, { ram with state := .error }, { mmu with state := state }) := by
  unfold readRamSingle
  cases aw with
  | byte =>
      obtain ⟨state, hread⟩ := readRam_refused ram (fun _ => residue) hrefuses
      rw [hread]
      exact ⟨_, state, rfl⟩
  | halfword =>
      obtain ⟨state, hread⟩ := readRam_refused ram (fun _ => 0) hrefuses
      rw [hread]
      exact ⟨_, state, rfl⟩
  | word =>
      obtain ⟨state, hread⟩ := readRam_refused ram (fun _ => 0) hrefuses
      rw [hread]
      exact ⟨_, state, rfl⟩

theorem writeRam_refused (ram : Device) {mmu : Mmu} {offs : Word} {aw : Width}
    (buf : Nat → BitVec 8) (hrefuses : ¬ mmu.Accepts offs aw.bytes mpermWrite) :
    ∃ state, writeRam ram mmu offs buf 1 aw =
      .ok (0, { ram with state := .error }, { mmu with state := state }) := by
  obtain ⟨state, hne, hwrite⟩ := mmuWriteFrom_refused aw.bytes_lt hrefuses
  refine ⟨state, ?_⟩
  unfold writeRam
  rw [← Width.bytes, hwrite, Transition.ok_bind]
  exact if_neg hne

theorem writeRamSingle_refused {ram : Device} {mmu : Mmu} {offs value : Word} {aw : Width}
    (hrefuses : ¬ mmu.Accepts offs aw.bytes mpermWrite) :
    ∃ state, writeRamSingle ram mmu offs value aw =
      .ok ({ ram with state := .error }, { mmu with state := state }) := by
  unfold writeRamSingle
  cases aw with
  | byte =>
      obtain ⟨state, hwrite⟩ :=
        writeRam_refused ram (Bytes.byteAt ((value &&& 0xff).setWidth 8)) hrefuses
      simp only [hwrite, Transition.ok_bind]
      exact ⟨state, rfl⟩
  | halfword =>
      obtain ⟨state, hwrite⟩ :=
        writeRam_refused ram (Bytes.byteAt ((value &&& 0xffff).setWidth 16)) hrefuses
      simp only [hwrite, Transition.ok_bind]
      exact ⟨state, rfl⟩
  | word =>
      obtain ⟨state, hwrite⟩ := writeRam_refused ram (Bytes.byteAt value) hrefuses
      simp only [hwrite, Transition.ok_bind]
      exact ⟨state, rfl⟩

/-! ## Single accesses over the bus -/

/-- The released bus after the device at position `i` has served an access. -/
def Bus.served (bus : Bus) (i : Nat) (dev : Device) (mmu : Mmu) : Bus :=
  { mmioDevices := bus.mmioDevices.set i dev, mutex := false, status := .ok, mmu := mmu }

theorem Bus.served_wiring {bus : Bus} {offs : Size} {i : Nat} {dev dev' : Device}
    (h : bus.Routes offs i dev) (hw : dev'.wiring = dev.wiring) (mmu : Mmu) :
    (bus.served i dev' mmu).wiring = bus.wiring := Bus.serve_wiring h hw mmu

theorem busReadSingle_routed {residue : BitVec 8} {bus : Bus} {offs : Size} {aw : Width}
    {i : Nat} {dev : Device} (hlock : bus.mutex = false) (hroute : bus.Routes offs i dev) :
    busReadSingle residue bus offs aw =
      dev.readSingle residue bus.mmu (offs.setWidth 32) aw >>= fun x =>
        .ok (x.1, bus.served i x.2.1 x.2.2) := by
  have hroute' : Bus.Routes { bus with mutex := true } offs i dev := hroute.congr (by rfl)
  rw [busReadSingle, busLock_of_unlocked hlock, Transition.ok_bind, busFindDevice_routes hroute']
  rfl

theorem busReadSingle_unmapped {residue : BitVec 8} {bus : Bus} {offs : Size} {aw : Width}
    (hlock : bus.mutex = false) (hnone : bus.Unmapped offs) :
    busReadSingle residue bus offs aw =
      .ok (0x0badc0de, { bus with mutex := false, status := .addressNotFound }) := by
  have hnone' : Bus.Unmapped { bus with mutex := true } offs := hnone.congr (by rfl)
  rw [busReadSingle, busLock_of_unlocked hlock, Transition.ok_bind, busFindDevice_unmapped hnone']
  rfl

theorem busWriteSingle_routed {bus : Bus} {offs : Size} {value : Word} {aw : Width} {i : Nat}
    {dev : Device} (hlock : bus.mutex = false) (hroute : bus.Routes offs i dev)
    (hperm : dev.perm &&& mmioWrite = mmioWrite) :
    busWriteSingle bus offs value aw =
      dev.writeSingle bus.mmu (offs.setWidth 32) value aw >>= fun x =>
        .ok (bus.served i x.1 x.2) := by
  have hroute' : Bus.Routes { bus with mutex := true } offs i dev := hroute.congr (by rfl)
  rw [busWriteSingle, busLock_of_unlocked hlock, Transition.ok_bind, busFindDevice_routes hroute']
  simp only [hperm, ne_eq, not_true_eq_false, if_false]
  rfl

theorem busWriteSingle_readOnly {bus : Bus} {offs : Size} {value : Word} {aw : Width} {i : Nat}
    {dev : Device} (hlock : bus.mutex = false) (hroute : bus.Routes offs i dev)
    (hperm : dev.perm &&& mmioWrite ≠ mmioWrite) :
    busWriteSingle bus offs value aw = .error .assertion := by
  have hroute' : Bus.Routes { bus with mutex := true } offs i dev := hroute.congr (by rfl)
  rw [busWriteSingle, busLock_of_unlocked hlock, Transition.ok_bind, busFindDevice_routes hroute']
  exact if_pos hperm

theorem busWriteSingle_unmapped {bus : Bus} {offs : Size} {value : Word} {aw : Width}
    (hlock : bus.mutex = false) (hnone : bus.Unmapped offs) :
    busWriteSingle bus offs value aw =
      .ok { bus with mutex := false, status := .addressNotFound } := by
  have hnone' : Bus.Unmapped { bus with mutex := true } offs := hnone.congr (by rfl)
  rw [busWriteSingle, busLock_of_unlocked hlock, Transition.ok_bind, busFindDevice_unmapped hnone']
  rfl

theorem busReadSingle_locked {residue : BitVec 8} {bus : Bus} {offs : Size} {aw : Width}
    (hlock : bus.mutex = true) : busReadSingle residue bus offs aw = .error .deadlock := by
  rw [busReadSingle, busLock, hlock]
  rfl

theorem busWriteSingle_locked {bus : Bus} {offs : Size} {value : Word} {aw : Width}
    (hlock : bus.mutex = true) : busWriteSingle bus offs value aw = .error .deadlock := by
  rw [busWriteSingle, busLock, hlock]
  rfl

theorem busReadMultiple_locked {bus : Bus} {offs : Size} {dst : Nat → BitVec 8} {count : Size}
    {aw : Width} (hlock : bus.mutex = true) :
    busReadMultiple bus offs dst count aw = .error .deadlock := by
  rw [busReadMultiple, busLock, hlock]
  rfl

theorem busWriteMultiple_locked {bus : Bus} {offs : Size} {src : Nat → BitVec 8} {count : Size}
    {aw : Width} (hlock : bus.mutex = true) :
    busWriteMultiple bus offs src count aw = .error .deadlock := by
  rw [busWriteMultiple, busLock, hlock]
  rfl

theorem busReadMultiple_routed {bus : Bus} {offs : Size} {dst : Nat → BitVec 8} {count : Size}
    {aw : Width} {i : Nat} {dev : Device} (hlock : bus.mutex = false)
    (hroute : bus.Routes offs i dev) :
    busReadMultiple bus offs dst count aw =
      dev.read bus.mmu (offs.setWidth 32) dst count aw >>= fun x =>
        if x.1 ≠ count then
          .ok (0, x.2.1, { bus.served i x.2.2.1 x.2.2.2 with status := .deviceFailure })
        else .ok (count, x.2.1, bus.served i x.2.2.1 x.2.2.2) := by
  have hroute' : Bus.Routes { bus with mutex := true } offs i dev := hroute.congr (by rfl)
  rw [busReadMultiple, busLock_of_unlocked hlock, Transition.ok_bind, busFindDevice_routes hroute']
  rfl

theorem busReadMultiple_unmapped {bus : Bus} {offs : Size} {dst : Nat → BitVec 8} {count : Size}
    {aw : Width} (hlock : bus.mutex = false) (hnone : bus.Unmapped offs) :
    busReadMultiple bus offs dst count aw =
      .ok (0, dst, { bus with mutex := false, status := .addressNotFound }) := by
  have hnone' : Bus.Unmapped { bus with mutex := true } offs := hnone.congr (by rfl)
  rw [busReadMultiple, busLock_of_unlocked hlock, Transition.ok_bind,
    busFindDevice_unmapped hnone']
  rfl

/-- A transfer that the device cuts short leaves the bus locked. -/
theorem busWriteMultiple_routed {bus : Bus} {offs : Size} {src : Nat → BitVec 8} {count : Size}
    {aw : Width} {i : Nat} {dev : Device} (hlock : bus.mutex = false)
    (hroute : bus.Routes offs i dev) :
    busWriteMultiple bus offs src count aw =
      if dev.perm &&& mmioWrite ≠ mmioWrite then .error .assertion
      else if dev.state ≠ .ready then .error .assertion
      else
        dev.write bus.mmu (offs.setWidth 32) src count aw >>= fun x =>
          if x.1 ≠ count then
            .ok (0, { bus.served i x.2.1 x.2.2 with mutex := true, status := .deviceFailure })
          else .ok (count, bus.served i x.2.1 x.2.2) := by
  have hroute' : Bus.Routes { bus with mutex := true } offs i dev := hroute.congr (by rfl)
  rw [busWriteMultiple, busLock_of_unlocked hlock, Transition.ok_bind,
    busFindDevice_routes hroute']
  rfl

theorem busWriteMultiple_unmapped {bus : Bus} {offs : Size} {src : Nat → BitVec 8}
    {count : Size} {aw : Width} (hlock : bus.mutex = false) (hnone : bus.Unmapped offs) :
    busWriteMultiple bus offs src count aw =
      .ok (0, { bus with mutex := false, status := .addressNotFound }) := by
  have hnone' : Bus.Unmapped { bus with mutex := true } offs := hnone.congr (by rfl)
  rw [busWriteMultiple, busLock_of_unlocked hlock, Transition.ok_bind,
    busFindDevice_unmapped hnone']
  rfl

theorem served_of_busReadSingle {residue : BitVec 8} {bus bus' : Bus} {offs : Size} {aw : Width}
    {i : Nat} {dev : Device} {r : Word} (hlock : bus.mutex = false)
    (hroute : bus.Routes offs i dev) (h : busReadSingle residue bus offs aw = .ok (r, bus')) :
    ∃ dev' mmu', dev.readSingle residue bus.mmu (offs.setWidth 32) aw = .ok (r, dev', mmu') ∧
      bus' = bus.served i dev' mmu' := by
  rw [busReadSingle_routed hlock hroute] at h
  obtain ⟨⟨r', dev', mmu'⟩, hread, h⟩ := Transition.exists_of_bind_ok h
  cases h
  exact ⟨dev', mmu', hread, rfl⟩

theorem served_of_busWriteSingle {bus bus' : Bus} {offs : Size} {value : Word} {aw : Width}
    {i : Nat} {dev : Device} (hlock : bus.mutex = false) (hroute : bus.Routes offs i dev)
    (h : busWriteSingle bus offs value aw = .ok bus') :
    dev.perm &&& mmioWrite = mmioWrite ∧
      ∃ dev' mmu', dev.writeSingle bus.mmu (offs.setWidth 32) value aw = .ok (dev', mmu') ∧
        bus' = bus.served i dev' mmu' := by
  by_cases hperm : dev.perm &&& mmioWrite = mmioWrite
  · rw [busWriteSingle_routed hlock hroute hperm] at h
    obtain ⟨⟨dev', mmu'⟩, hwrite, h⟩ := Transition.exists_of_bind_ok h
    cases h
    exact ⟨hperm, dev', mmu', hwrite, rfl⟩
  · rw [busWriteSingle_readOnly hlock hroute hperm] at h
    cases h

/-- A store there goes to RAM, which accepts it. -/
structure Bus.Stores (bus : Bus) (a : Vaddr) (aw : Width) : Prop where
  routed : ∃ i dev, bus.Routes (wide a) i dev ∧ dev.driver = .ram
  accepts : bus.mmu.Accepts a aw.bytes mpermWrite

/-- What a single write may do to the memory behind RAM. -/
theorem busWriteSingle_mmu {bus bus' : Bus} {a : Vaddr} {value : Word} {aw : Width}
    (h : busWriteSingle bus (wide a) value aw = .ok bus') :
    bus.mmu.SameMemory bus'.mmu ∨
      bus.Stores a aw ∧
        bus'.mmu = bus.mmu.written (Bytes.byteAt value) a aw.bytes := by
  obtain ⟨locked, hlock, -⟩ := Transition.exists_of_bind_ok h
  obtain ⟨hfree, -⟩ := busLock_eq_ok hlock
  rcases bus.routes_or_unmapped (wide a) with ⟨i, dev, hroute⟩ | hnone
  · obtain ⟨-, dev', mmu', hdev, rfl⟩ := served_of_busWriteSingle hfree hroute h
    rw [setWidth_wide] at hdev
    unfold Device.writeSingle at hdev
    cases hdriver : dev.driver with
    | ram =>
        simp only [hdriver] at hdev
        by_cases haccepts : bus.mmu.Accepts a aw.bytes mpermWrite
        · rw [writeRamSingle_accepted haccepts] at hdev
          cases hdev
          exact Or.inr ⟨⟨⟨i, dev, hroute, hdriver⟩, haccepts⟩, rfl⟩
        · obtain ⟨state, hrefused⟩ := writeRamSingle_refused haccepts
          rw [hrefused] at hdev
          cases hdev
          exact Or.inl ⟨state, rfl⟩
    | csr =>
        simp only [hdriver] at hdev
        cases hdev
        exact Or.inl (.refl _)
    | other handlers =>
        simp only [hdriver] at hdev
        cases hf : handlers.writeSingle with
        | none =>
            simp only [hf] at hdev
            cases hdev
        | some f =>
            simp only [hf] at hdev
            cases hdev
            exact Or.inl (.refl _)
  · rw [busWriteSingle_unmapped hfree hnone] at h
    cases h
    exact Or.inl (.refl _)

theorem busReadSingle_frame {residue : BitVec 8} {bus bus' : Bus} {offs : Size} {aw : Width}
    {r : Word} (h : busReadSingle residue bus offs aw = .ok (r, bus')) : bus.AfterRead bus' := by
  obtain ⟨locked, hlock, -⟩ := Transition.exists_of_bind_ok h
  obtain ⟨hfree, -⟩ := busLock_eq_ok hlock
  rcases bus.routes_or_unmapped offs with ⟨i, dev, hroute⟩ | hnone
  · rw [busReadSingle_routed hfree hroute] at h
    obtain ⟨⟨r', dev', mmu'⟩, hread, h⟩ := Transition.exists_of_bind_ok h
    obtain ⟨hw, hmem⟩ := Device.readSingle_frame hread
    cases h
    exact ⟨Bus.served_wiring hroute hw mmu', hmem, rfl⟩
  · rw [busReadSingle_unmapped hfree hnone] at h
    cases h
    exact ⟨rfl, .refl _, rfl⟩

theorem busReadSingle_accepted {bus : Bus} {a : Vaddr} {aw : Width} (residue : BitVec 8)
    (hlock : bus.mutex = false) (hram : bus.InRam a aw.size)
    (hperm : ∀ i < aw.size, (bus.mmu.permFrom a i).Readable) :
    ∃ bus', busReadSingle residue bus (wide a) aw =
        .ok (Bytes.ofBytes 32 aw.size (bus.mmu.byteFrom a), bus') ∧
      bus.AfterRead bus' ∧ bus'.status = .ok := by
  obtain ⟨i, dev, hroute, hdev⟩ := hram.routed
  have haccepts : bus.mmu.Accepts a aw.bytes mpermRead := by
    rw [Mmu.accepts_read_iff hram.sized aw.bytes_lt, aw.bytes_toNat]
    exact ⟨hram.held, hperm⟩
  rw [busReadSingle_routed hlock hroute, Device.readSingle, hdev.1]
  simp only [setWidth_wide, readRamSingle_accepted haccepts, Transition.ok_bind]
  refine ⟨_, rfl, ⟨?_, ⟨_, rfl⟩, rfl⟩, rfl⟩
  exact Bus.served_wiring hroute (by rfl) _

theorem busWriteSingle_accepted {bus : Bus} {a : Vaddr} {aw : Width} (value : Word)
    (hlock : bus.mutex = false) (hram : bus.InRam a aw.size)
    (hperm : ∀ i < aw.size, (bus.mmu.permFrom a i).Writable) :
    ∃ bus', busWriteSingle bus (wide a) value aw = .ok bus' ∧ bus'.wiring = bus.wiring ∧
      bus'.mmu = bus.mmu.written (Bytes.byteAt value) a aw.bytes ∧
      bus'.mutex = false ∧ bus'.status = .ok := by
  obtain ⟨i, dev, hroute, hdev⟩ := hram.routed
  have hwrite : dev.perm &&& mmioWrite = mmioWrite := by
    rw [hdev.2]
    decide
  have haccepts : bus.mmu.Accepts a aw.bytes mpermWrite := by
    rw [Mmu.accepts_write_iff hram.sized aw.bytes_lt, aw.bytes_toNat]
    exact ⟨hram.held, hperm⟩
  rw [busWriteSingle_routed hlock hroute hwrite, Device.writeSingle, hdev.1]
  simp only [setWidth_wide, writeRamSingle_accepted haccepts, Transition.ok_bind]
  refine ⟨_, rfl, ?_, rfl, rfl, rfl⟩
  exact Bus.served_wiring hroute (by rfl) _

/-! ## Single bytes -/

section Byte

variable {bus : Bus} {a : Size} {i : Nat} {dev : Device}

theorem Device.readSingle_ram (hram : dev.driver = .ram) (residue : BitVec 8) (mmu : Mmu)
    (offs : Word) (aw : Width) :
    dev.readSingle residue mmu offs aw = .ok (readRamSingle residue dev mmu offs aw) := by
  rw [Device.readSingle, hram]

/-- A byte that RAM lets be read. -/
theorem busReadSingle_byte (residue : BitVec 8) (hlock : bus.mutex = false)
    (hroute : bus.Routes a i dev) (hram : dev.driver = .ram)
    (haccepts : bus.mmu.Accepts (a.setWidth 32) Width.byte.bytes mpermRead) :
    busReadSingle residue bus a .byte =
      .ok ((bus.mmu.byteFrom (a.setWidth 32) 0).setWidth 32,
        bus.served i { dev with state := .ready } { bus.mmu with state := .ok }) := by
  have hone : Width.byte.size = 1 := rfl
  rw [busReadSingle_routed hlock hroute, Device.readSingle_ram hram,
    readRamSingle_accepted haccepts, Transition.ok_bind, hone, Bytes.ofBytes_one]

/-- Any other byte of RAM is what the stack held. -/
theorem busReadSingle_denied (residue : BitVec 8) (hlock : bus.mutex = false)
    (hroute : bus.Routes a i dev) (hram : dev.driver = .ram)
    (hrefuses : ¬ bus.mmu.Accepts (a.setWidth 32) Width.byte.bytes mpermRead) :
    ∃ state, busReadSingle residue bus a .byte =
      .ok (residue.setWidth 32,
        bus.served i { dev with state := .error } { bus.mmu with state := state }) := by
  obtain ⟨state, hread⟩ := readRam_refused dev (fun _ => residue) hrefuses
  refine ⟨state, ?_⟩
  rw [busReadSingle_routed hlock hroute, Device.readSingle_ram hram, readRamSingle, hread]
  rfl

end Byte

end CRiscV
