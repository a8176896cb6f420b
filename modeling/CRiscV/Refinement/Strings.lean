/-
Strings of the guest: `bus_read_string`, and `sys_open` with its buffer of 256 bytes.

The loop has no bound of its own.  It goes on from address to address, and no device has
an address of 33 bits.
-/
import CRiscV.Refinement.Descriptor
import CRiscV.Refinement.Lock
import CRiscV.Transition.Loop

namespace CRiscV

open Transition (DoWhile doWhile)

/-- The bus hands the address to RAM. -/
def Bus.AtRam (bus : Bus) (a : Size) : Prop := ∃ i dev, bus.Routes a i dev ∧ dev.driver = .ram

/-- The bus hands the address to the CSR device. -/
def Bus.AtCsr (bus : Bus) (a : Size) : Prop := ∃ i dev, bus.Routes a i dev ∧ dev.driver = .csr

/-- RAM lets the byte at the address be read. -/
def Bus.Shows (bus : Bus) (a : Size) : Prop :=
  bus.AtRam a ∧ bus.mmu.Lets Perm.Readable a.toNat

/-- The address of byte `j` of what starts at `offs`. -/
def byteAddr (offs : Size) (j : Nat) : Size := offs + BitVec.ofNat 64 j

/-- The first `n` bytes from `offs` on can be read, and none of them is 0. -/
def Bus.ShowsText (bus : Bus) (offs : Size) (n : Nat) : Prop :=
  ∀ j < n, bus.Shows (byteAddr offs j) ∧ bus.mmu.dataAt (byteAddr offs j).toNat ≠ 0

/-- These bytes. -/
def Bus.text (bus : Bus) (offs : Size) (n : Nat) : List (BitVec 8) :=
  (List.range n).map fun j => bus.mmu.dataAt (byteAddr offs j).toNat

/-! ## One byte -/

section Byte

variable {bus bus' : Bus} {a : Size} {residue : BitVec 8}

/-- The windows of the devices end below `2 ^ 32`. -/
theorem Bus.Routes.lt {i : Nat} {dev : Device} (h : bus.Routes a i dev) : a.toNat < 2 ^ 32 := by
  unfold Bus.Routes at h
  rw [busFindDevice_fst] at h
  obtain ⟨k, hfound, -⟩ := Option.bind_eq_some_iff.mp h
  obtain ⟨hk, hcovers, -⟩ := List.findIdx?_eq_some_iff_getElem.mp hfound
  exact Nat.lt_trans (Device.covers_iff.mp hcovers).2 (BitVec.isLt _)

theorem Bus.AfterRead.trans {bus'' : Bus} (h : bus.AfterRead bus') (h' : bus'.AfterRead bus'') :
    bus.AfterRead bus'' :=
  ⟨h'.wiring.trans h.wiring, h.memory.trans h'.memory, h'.unlocked⟩

theorem Bus.AfterRead.atRam (h : bus.AfterRead bus') (hram : bus.AtRam a) : bus'.AtRam a := by
  obtain ⟨i, dev, hroute, hdriver⟩ := hram
  obtain ⟨dev', hroute', hwiring⟩ := hroute.rewire h.wiring
  exact ⟨i, dev', hroute', (congrArg Prod.fst hwiring).trans hdriver⟩

theorem Bus.AfterRead.atCsr (h : bus.AfterRead bus') (hcsr : bus.AtCsr a) : bus'.AtCsr a := by
  obtain ⟨i, dev, hroute, hdriver⟩ := hcsr
  obtain ⟨dev', hroute', hwiring⟩ := hroute.rewire h.wiring
  exact ⟨i, dev', hroute', (congrArg Prod.fst hwiring).trans hdriver⟩

theorem Bus.AfterRead.unmapped (h : bus.AfterRead bus') (hnone : bus.Unmapped a) :
    bus'.Unmapped a := by
  rcases bus'.routes_or_unmapped a with ⟨i, dev, hroute⟩ | hnone'
  · obtain ⟨dev', hroute', -⟩ := hroute.rewire h.wiring.symm
    unfold Bus.Routes at hroute'
    unfold Bus.Unmapped at hnone
    rw [hnone] at hroute'
    cases hroute'
  · exact hnone'

theorem Bus.AfterRead.lets_iff {P : Perm → Prop} {x : Nat} (h : bus.AfterRead bus') :
    bus'.mmu.Lets P x ↔ bus.mmu.Lets P x := by
  obtain ⟨state, hmmu⟩ := h.memory
  rw [hmmu]
  rfl

theorem Bus.AfterRead.shows (h : bus.AfterRead bus') (hshows : bus.Shows a) : bus'.Shows a := by
  exact ⟨h.atRam hshows.1, h.lets_iff.mpr hshows.2⟩

theorem Bus.AfterRead.dataAt (h : bus.AfterRead bus') (x : Nat) :
    bus'.mmu.dataAt x = bus.mmu.dataAt x := by
  obtain ⟨state, hmmu⟩ := h.memory
  rw [hmmu]
  rfl

theorem Bus.AfterRead.sized (h : bus.AfterRead bus') (hsized : bus.mmu.size.toNat < 2 ^ 63) :
    bus'.mmu.size.toNat < 2 ^ 63 := by
  obtain ⟨state, hmmu⟩ := h.memory
  rw [hmmu]
  exact hsized

theorem Mmu.accepts_byte_iff {mmu : Mmu} (hsized : mmu.size.toNat < 2 ^ 63)
    (ha : a.toNat < 2 ^ 32) :
    mmu.Accepts (a.setWidth 32) Width.byte.bytes mpermRead ↔ mmu.Lets Perm.Readable a.toNat := by
  have hone : Width.byte.bytes.toNat = 1 := rfl
  rw [← Mmu.allows_read_iff hsized Width.byte.bytes_lt, hone]
  unfold Mmu.Allows Mmu.Holds Mmu.Lets
  rw [setWidth_toNat a ha]
  constructor
  · rintro ⟨⟨hlo, hhi⟩, hall⟩
    exact ⟨hlo, by omega, hall 0 Nat.zero_lt_one⟩
  · rintro ⟨hlo, hhi, hbyte⟩
    refine ⟨⟨hlo, by omega⟩, ?_⟩
    intro i hi
    obtain rfl : i = 0 := by omega
    exact hbyte

/-- The bus behind a read that RAM has answered. -/
theorem Bus.Routes.afterRead {i : Nat} {dev : Device} (h : bus.Routes a i dev)
    (state : DeviceState) (flag : MmuState) :
    bus.AfterRead (bus.served i { dev with state := state } { bus.mmu with state := flag }) :=
  ⟨Bus.served_wiring h (by rfl) _, ⟨flag, rfl⟩, rfl⟩

theorem Bus.Shows.read (hshows : bus.Shows a) (hfree : bus.mutex = false)
    (hsized : bus.mmu.size.toNat < 2 ^ 63) :
    ∃ bus', bus.AfterRead bus' ∧ bus'.status = .ok ∧ ∀ residue,
      busReadSingle residue bus a .byte = .ok ((bus.mmu.dataAt a.toNat).setWidth 32, bus') := by
  obtain ⟨⟨i, dev, hroute, hdriver⟩, hlets⟩ := hshows
  have hlt := hroute.lt
  have haccepts := (Mmu.accepts_byte_iff hsized hlt).mpr hlets
  have hbyte : bus.mmu.byteFrom (a.setWidth 32) 0 = bus.mmu.dataAt a.toNat := by
    have hholds := haccepts.holds Width.byte.bytes_lt
    rw [← hholds.dataAt_eq, setWidth_toNat a hlt]
    rfl
  refine ⟨_, hroute.afterRead .ready .ok, rfl, ?_⟩
  intro residue
  rw [busReadSingle_byte residue hfree hroute hdriver haccepts, hbyte]

/-- A byte of RAM that cannot be read is what the stack held, with the status `ok`. -/
theorem Bus.AtRam.read_denied (hram : bus.AtRam a)
    (hdenied : ¬ bus.mmu.Lets Perm.Readable a.toNat) (hfree : bus.mutex = false)
    (hsized : bus.mmu.size.toNat < 2 ^ 63) (residue : BitVec 8) :
    ∃ bus', bus.AfterRead bus' ∧ bus'.status = .ok ∧
      busReadSingle residue bus a .byte = .ok (residue.setWidth 32, bus') := by
  obtain ⟨i, dev, hroute, hdriver⟩ := hram
  have hrefuses := mt (Mmu.accepts_byte_iff hsized hroute.lt).mp hdenied
  obtain ⟨state, hread⟩ := busReadSingle_denied residue hfree hroute hdriver hrefuses
  exact ⟨_, hroute.afterRead .error state, rfl, hread⟩

/-- A register of the CSR device reads as 0, with the status `ok`. -/
theorem Bus.AtCsr.read (hcsr : bus.AtCsr a) (hfree : bus.mutex = false) :
    ∃ bus', bus.AfterRead bus' ∧ bus'.status = .ok ∧ ∀ residue,
      busReadSingle residue bus a .byte = .ok (0, bus') := by
  obtain ⟨i, dev, hroute, hdriver⟩ := hcsr
  refine ⟨bus.served i { dev with state := .error } bus.mmu,
    ⟨Bus.served_wiring hroute (by rfl) _, .refl _, rfl⟩, rfl, ?_⟩
  intro residue
  have hserve : dev.readSingle residue bus.mmu (a.setWidth 32) .byte =
      .ok ((csrMmioReadSingle dev).1, (csrMmioReadSingle dev).2, bus.mmu) := by
    rw [Device.readSingle, hdriver]
  rw [busReadSingle_routed hfree hroute, hserve, Transition.ok_bind]
  rfl

end Byte

/-! ## The loop -/

/-- A turn of the loop: the byte that it stores, and whether another one follows. -/
def stringTurn (residue : Nat → BitVec 8) (offs : Size) (s : Nat × Bus) :
    Except Abort (BitVec 8 × Bool × Nat × Bus) := do
  let (r, bus) ← busReadSingle (residue s.1) s.2 (byteAddr offs s.1) .byte
  let c : BitVec 8 := r.setWidth 8
  return (c, c ≠ 0 ∧ bus.status = .ok, s.1 + 1, bus)

section Loop

variable {residue : Nat → BitVec 8} {offs : Size} {bus bus' : Bus} {fuel i n : Nat}

theorem byte_of_word (c : BitVec 8) : (c.setWidth 32).setWidth 8 = c :=
  BitVec.setWidth_setWidth_of_le c (by decide)

theorem busReadStringLoop_next {r : Word}
    (hmore : r.setWidth 8 ≠ (0 : BitVec 8) ∧ bus'.status = .ok)
    (hread : busReadSingle (residue i) bus (byteAddr offs i) .byte = .ok (r, bus')) :
    busReadStringLoop residue offs (fuel + 1) i bus =
      (busReadStringLoop residue offs fuel (i + 1) bus').map fun x =>
        (r.setWidth 8 :: x.1, x.2) := by
  unfold byteAddr at hread
  rw [busReadStringLoop, hread, Transition.ok_bind]
  simp only
  rw [if_pos hmore]
  cases busReadStringLoop residue offs fuel (i + 1) bus' with
  | error e => rfl
  | ok x => rfl

theorem busReadStringLoop_last {r : Word}
    (hlast : ¬ (r.setWidth 8 ≠ (0 : BitVec 8) ∧ bus'.status = .ok))
    (hread : busReadSingle (residue i) bus (byteAddr offs i) .byte = .ok (r, bus')) :
    busReadStringLoop residue offs (fuel + 1) i bus = .ok ([r.setWidth 8], bus') := by
  unfold byteAddr at hread
  rw [busReadStringLoop, hread, Transition.ok_bind]
  simp only
  rw [if_neg hlast]
  rfl

/-- The bounded loop in terms of its turns. -/
theorem busReadStringLoop_eq : busReadStringLoop residue offs fuel i bus =
    (doWhile (stringTurn residue offs) fuel (i, bus)).map fun x => (x.1, x.2.2) := by
  induction fuel generalizing i bus with
  | zero => rfl
  | succ fuel ih =>
      rw [doWhile, stringTurn]
      cases hread : busReadSingle (residue i) bus (byteAddr offs i) .byte with
      | error e =>
          unfold byteAddr at hread
          rw [busReadStringLoop, hread]
          rfl
      | ok x =>
          obtain ⟨r, bus'⟩ := x
          simp only [Transition.ok_bind]
          by_cases hmore : r.setWidth 8 ≠ (0 : BitVec 8) ∧ bus'.status = .ok
          · rw [busReadStringLoop_next hmore hread, decide_eq_true hmore, ih]
            simp only [pure_bind, if_true]
            cases doWhile (stringTurn residue offs) fuel (i + 1, bus') with
            | error e => rfl
            | ok x => rfl
          · rw [busReadStringLoop_last hmore hread, decide_eq_false hmore]
            rfl

/-- A byte with the status `ok` has an address of 32 bits. -/
theorem busReadSingle_lt {residue : BitVec 8} {a : Size} {r : Word}
    (hread : busReadSingle residue bus a .byte = .ok (r, bus')) (hstatus : bus'.status = .ok) :
    a.toNat < 2 ^ 32 := by
  obtain ⟨locked, hlock, -⟩ := Transition.exists_of_bind_ok hread
  obtain ⟨hfree, -⟩ := busLock_eq_ok hlock
  rcases bus.routes_or_unmapped a with ⟨k, dev, hroute⟩ | hnone
  · exact hroute.lt
  · rw [busReadSingle_unmapped hfree hnone] at hread
    cases hread
    cases hstatus

theorem byteAddr_toNat (h : offs.toNat + i < 2 ^ 64) :
    (byteAddr offs i).toNat = offs.toNat + i := by
  unfold byteAddr
  rw [BitVec.toNat_add, BitVec.toNat_ofNat]
  omega

theorem byteAddr_succ (h : (byteAddr offs i).toNat < 2 ^ 32) :
    (byteAddr offs (i + 1)).toNat = (byteAddr offs i).toNat + 1 := by
  unfold byteAddr at h ⊢
  simp only [BitVec.toNat_add, BitVec.toNat_ofNat] at h ⊢
  omega

/-- The loop ends, with the outcome of the bounded one: a turn that is not the last has an
address of 32 bits, and each turn has fewer of them in front of it. -/
theorem busReadString_loops {out : Except Abort (List (BitVec 8) × Nat × Bus)} :
    DoWhile (stringTurn residue offs) (0, bus) out ↔
      doWhile (stringTurn residue offs) (2 ^ 32 + 1) (0, bus) = out := by
  refine DoWhile.iff_of_measure (fun s => 2 ^ 32 - (byteAddr offs s.1).toNat) ?_ (by omega)
  intro s a s' hturn
  obtain ⟨⟨r, bus'⟩, hread, hturn⟩ := Transition.exists_of_bind_ok hturn
  simp only at hturn
  injection hturn with hturn
  injection hturn with ha hturn
  injection hturn with hmore hturn
  have hlt := busReadSingle_lt hread (of_decide_eq_true hmore).2
  have hnext := byteAddr_succ hlt
  rw [← hturn]
  show 2 ^ 32 - (byteAddr offs (s.1 + 1)).toNat < 2 ^ 32 - (byteAddr offs s.1).toNat
  omega

theorem Bus.text_succ : bus.text offs (n + 1) =
    bus.text offs n ++ [bus.mmu.dataAt (byteAddr offs n).toNat] := by
  unfold Bus.text
  rw [List.range_succ, List.map_append, List.map_singleton]

theorem Bus.text_length : (bus.text offs n).length = n := by
  unfold Bus.text
  rw [List.length_map, List.length_range]

/-- Bytes that can be read have addresses of 32 bits. -/
theorem Bus.ShowsText.le (h : bus.ShowsText offs n) : n ≤ 2 ^ 32 := by
  have hlt : ∀ j < n, (byteAddr offs j).toNat < 2 ^ 32 := by
    intro j hj
    obtain ⟨⟨i, dev, hroute, -⟩, -⟩ := (h j hj).1
    exact hroute.lt
  unfold byteAddr at hlt
  simp only [BitVec.toNat_add, BitVec.toNat_ofNat] at hlt
  by_contra hlarge
  have hfirst := hlt 0 (by omega)
  have hbehind := hlt (2 ^ 32 - offs.toNat) (by omega)
  omega

/-- The loop stores what can be read, whatever the stack holds, and goes on behind it. -/
theorem busReadStringLoop_text (hfree : bus.mutex = false)
    (hsized : bus.mmu.size.toNat < 2 ^ 63) (h : bus.ShowsText offs n) :
    ∃ bus', bus.AfterRead bus' ∧ ∀ residue fuel,
      busReadStringLoop residue offs (fuel + n) 0 bus =
        (busReadStringLoop residue offs fuel n bus').map fun x =>
          (bus.text offs n ++ x.1, x.2) := by
  induction n with
  | zero =>
      refine ⟨bus, ⟨rfl, .refl _, hfree⟩, ?_⟩
      intro residue fuel
      rw [Nat.add_zero]
      cases busReadStringLoop residue offs fuel 0 bus with
      | error e => rfl
      | ok x => rfl
  | succ n ih =>
      obtain ⟨bus', hafter, hloop⟩ := ih fun j hj => h j (Nat.lt_succ_of_lt hj)
      obtain ⟨hshows, hne⟩ := h n (Nat.lt_succ_self n)
      obtain ⟨bus'', hafter', hstatus, hread⟩ :=
        (hafter.shows hshows).read hafter.unlocked (hafter.sized hsized)
      rw [hafter.dataAt] at hread
      refine ⟨bus'', hafter.trans hafter', ?_⟩
      intro residue fuel
      have hturn := @busReadStringLoop_next residue offs bus' bus'' fuel n _
        ⟨by rw [byte_of_word]; exact hne, hstatus⟩ (hread (residue n))
      rw [← Nat.succ_add_eq_add_succ, hloop, hturn, byte_of_word, Bus.text_succ]
      cases busReadStringLoop residue offs fuel (n + 1) bus'' with
      | error e => rfl
      | ok x =>
          show Except.ok (_ ++ _ :: x.1, x.2) = Except.ok ((_ ++ [_]) ++ x.1, x.2)
          rw [List.append_assoc, List.singleton_append]

theorem busReadString_text (hfree : bus.mutex = false) (hsized : bus.mmu.size.toNat < 2 ^ 63)
    (h : bus.ShowsText offs n) :
    ∃ bus', bus.AfterRead bus' ∧ ∀ residue, busReadString residue bus offs =
      (busReadStringLoop residue offs (2 ^ 32 - n + 1) n bus').map fun x =>
        (bus.text offs n ++ x.1, x.2) := by
  obtain ⟨bus', hafter, hloop⟩ := busReadStringLoop_text hfree hsized h
  have hle := h.le
  have hfuel : 2 ^ 32 + 1 = 2 ^ 32 - n + 1 + n := by omega
  refine ⟨bus', hafter, ?_⟩
  intro residue
  rw [busReadString, hfuel]
  exact hloop residue _

/-- A string of `n` bytes and its end. -/
theorem busReadString_zero (hfree : bus.mutex = false) (hsized : bus.mmu.size.toNat < 2 ^ 63)
    (h : bus.ShowsText offs n) (hend : bus.Shows (byteAddr offs n))
    (hzero : bus.mmu.dataAt (byteAddr offs n).toNat = 0) :
    ∃ bus', bus.AfterRead bus' ∧ bus'.status = .ok ∧ ∀ residue,
      busReadString residue bus offs = .ok (bus.text offs (n + 1), bus') := by
  obtain ⟨bus', hafter, hloop⟩ := busReadString_text hfree hsized h
  obtain ⟨bus'', hafter', hstatus, hread⟩ :=
    (hafter.shows hend).read hafter.unlocked (hafter.sized hsized)
  rw [hafter.dataAt, hzero] at hread
  refine ⟨bus'', hafter.trans hafter', hstatus, ?_⟩
  intro residue
  rw [hloop, busReadStringLoop_last (fun hmore => hmore.1 rfl) (hread (residue n)), Bus.text_succ,
    hzero]
  rfl

/-- Behind what can be read, at an address that no device has. -/
theorem busReadString_unmapped (hfree : bus.mutex = false)
    (hsized : bus.mmu.size.toNat < 2 ^ 63) (h : bus.ShowsText offs n)
    (hend : bus.Unmapped (byteAddr offs n)) :
    ∃ bus', bus.AfterRead bus' ∧ bus'.status = .addressNotFound ∧ ∀ residue,
      busReadString residue bus offs = .ok (bus.text offs n ++ [0xde], bus') := by
  obtain ⟨bus', hafter, hloop⟩ := busReadString_text hfree hsized h
  have hnone := hafter.unmapped hend
  refine ⟨{ bus' with mutex := false, status := .addressNotFound },
    hafter.trans ⟨rfl, .refl _, rfl⟩, rfl, ?_⟩
  intro residue
  rw [hloop, busReadStringLoop_last _ (busReadSingle_unmapped hafter.unlocked hnone)]
  · rfl
  · intro hmore
    cases hmore.2

/-- At a register of the CSR device, which reads as 0. -/
theorem busReadString_csr (hfree : bus.mutex = false)
    (hsized : bus.mmu.size.toNat < 2 ^ 63) (h : bus.ShowsText offs n)
    (hend : bus.AtCsr (byteAddr offs n)) :
    ∃ bus', bus.AfterRead bus' ∧ bus'.status = .ok ∧ ∀ residue,
      busReadString residue bus offs = .ok (bus.text offs n ++ [0], bus') := by
  obtain ⟨bus', hafter, hloop⟩ := busReadString_text hfree hsized h
  obtain ⟨bus'', hafter', hstatus, hread⟩ := (hafter.atCsr hend).read hafter.unlocked
  refine ⟨bus'', hafter.trans hafter', hstatus, ?_⟩
  intro residue
  rw [hloop, busReadStringLoop_last (fun hmore => hmore.1 rfl) (hread (residue n))]
  rfl

/-- At a byte of RAM that cannot be read: what the stack holds decides. -/
theorem busReadString_denied (hfree : bus.mutex = false)
    (hsized : bus.mmu.size.toNat < 2 ^ 63) (h : bus.ShowsText offs n)
    (hram : bus.AtRam (byteAddr offs n))
    (hdenied : ¬ bus.mmu.Lets Perm.Readable (byteAddr offs n).toNat)
    (residue : Nat → BitVec 8) :
    ∃ bus', bus.AfterRead bus' ∧ bus'.status = .ok ∧ busReadString residue bus offs =
      if residue n = 0 then .ok (bus.text offs n ++ [0], bus')
      else (busReadStringLoop residue offs (2 ^ 32 - n) (n + 1) bus').map fun x =>
        (bus.text offs n ++ residue n :: x.1, x.2) := by
  obtain ⟨bus', hafter, hloop⟩ := busReadString_text hfree hsized h
  have hdenied' := mt hafter.lets_iff.mp hdenied
  obtain ⟨bus'', hafter', hstatus, hread⟩ := (hafter.atRam hram).read_denied hdenied'
    hafter.unlocked (hafter.sized hsized) (residue n)
  refine ⟨bus'', hafter.trans hafter', hstatus, ?_⟩
  rw [hloop]
  by_cases hzero : residue n = 0
  · rw [busReadStringLoop_last (fun hmore => hmore.1 ((byte_of_word _).trans hzero)) hread,
      byte_of_word, hzero, if_pos rfl]
    rfl
  · rw [busReadStringLoop_next ⟨fun h => hzero ((byte_of_word _).symm.trans h), hstatus⟩ hread,
      byte_of_word, if_neg hzero]
    cases busReadStringLoop residue offs (2 ^ 32 - n) (n + 1) bus'' with
    | error e => rfl
    | ok x => rfl

/-- What can be read has an end: there is a first byte that is 0 or cannot be read. -/
theorem Bus.exists_stop (bus : Bus) (offs : Size) : ∃ n, bus.ShowsText offs n ∧
    ¬ (bus.Shows (byteAddr offs n) ∧ bus.mmu.dataAt (byteAddr offs n).toNat ≠ 0) := by
  by_contra hnone
  have hgoes : ∀ n, bus.ShowsText offs n →
      bus.Shows (byteAddr offs n) ∧ bus.mmu.dataAt (byteAddr offs n).toNat ≠ 0 := by
    intro n htext
    by_contra hstop
    exact hnone ⟨n, htext, hstop⟩
  have hall : ∀ n, bus.ShowsText offs n := by
    intro n
    induction n with
    | zero => exact fun j hj => absurd hj (Nat.not_lt_zero j)
    | succ n ih =>
        intro j hj
        by_cases hlast : j = n
        · rw [hlast]
          exact hgoes n ih
        · exact ih j (by omega)
  have hle := (hall (2 ^ 32 + 1)).le
  omega

end Loop

/-! ## The string read -/

/-- The loop of the source ends, or blocks on a bus that is locked.  Over a free bus a
string that RAM lets be read is read up to its end. -/
theorem readString_exact {bus : Bus} (hsized : bus.mmu.size.toNat < 2 ^ 63)
    (residue : Nat → BitVec 8) (offs : Size) :
    (∃ out, DoWhile (stringTurn residue offs) (0, bus) out ∧
      (out = .error .deadlock ↔ bus.mutex = true) ∧
      busReadString residue bus offs = out.map fun x => (x.1, x.2.2)) ∧
    (bus.mutex = false → ∀ m, bus.ShowsText offs m → bus.Shows (byteAddr offs m) →
      bus.mmu.dataAt (byteAddr offs m).toNat = 0 →
      ∃ bus', busReadString residue bus offs = .ok (bus.text offs (m + 1), bus') ∧
        (bus.text offs (m + 1)).length = m + 1 ∧ bus'.status = .ok ∧
        bus'.mmu.data = bus.mmu.data ∧ bus'.mmu.perm = bus.mmu.perm) := by
  constructor
  · refine ⟨_, busReadString_loops.mpr rfl, ⟨?_, ?_⟩, busReadStringLoop_eq⟩
    · intro hblocked
      have hloop : busReadString residue bus offs = .error .deadlock := by
        rw [busReadString, busReadStringLoop_eq, hblocked]
        rfl
      by_contra hfree
      exact busReadStringLoop_avoids residue offs _ 0 (Bool.not_eq_true _ ▸ hfree) hloop
    · intro hlock
      have hturn : stringTurn residue offs (0, bus) = .error .deadlock := by
        rw [stringTurn, busReadSingle_locked hlock]
        rfl
      exact busReadString_loops.mp (.failed hturn)
  · intro hfree m htext hend hzero
    obtain ⟨bus', hafter, hstatus, hread⟩ := busReadString_zero hfree hsized htext hend hzero
    obtain ⟨state, hmmu⟩ := hafter.memory
    refine ⟨bus', hread residue, Bus.text_length, hstatus, ?_, ?_⟩
    · rw [hmmu]
    · rw [hmmu]

/-- The string "ab" at the start of a memory that has nothing else. -/
def textMmu : Mmu := rawMmu.written (fun i => [0x61, 0x62, 0].getD i 0) 0x10000 3

theorem textMmu_shows {j : Nat} (hj : j < 3) :
    (mainBus textMmu).Shows (byteAddr 0x10000 j) := by
  have hstart : (0x10000 : Size).toNat = 0x10000 := rfl
  have haddr := @byteAddr_toNat 0x10000 j (by omega)
  have hcovers : (ramDevice .ready).covers (byteAddr 0x10000 j) = true := by
    rw [ramDevice_covers_range]
    omega
  refine ⟨⟨0, ramDevice .ready, emulatorBus_ram hcovers, rfl⟩, ?_⟩
  rw [haddr]
  exact rawMmu_written_lets _ hj (by decide)

theorem textMmu_text : (mainBus textMmu).ShowsText 0x10000 2 := by
  intro j hj
  refine ⟨textMmu_shows (by omega), ?_⟩
  obtain rfl | rfl : j = 0 ∨ j = 1 := by omega
  · exact (show (0x61 : BitVec 8) ≠ 0 by decide)
  · exact (show (0x62 : BitVec 8) ≠ 0 by decide)

theorem shortString_read : ∃ bus',
    busReadString (fun _ => 0xaa) (mainBus textMmu) 0x10000 = .ok ([0x61, 0x62, 0], bus') ∧
    bus'.status = .ok ∧ bus'.mmu.data = textMmu.data ∧ bus'.mmu.perm = textMmu.perm := by
  obtain ⟨bus', hread, -, hstatus, hdata, hperm⟩ :=
    (@readString_exact (mainBus textMmu) (by decide) (fun _ => 0xaa) 0x10000).2 rfl 2 textMmu_text
      (textMmu_shows (by omega)) rfl
  exact ⟨bus', hread, hstatus, hdata, hperm⟩

/-! ## The path of a file -/

/-- The string at `offs` ends among its first 256 bytes, and all of it can be read. -/
def Bus.HoldsPath (bus : Bus) (offs : Size) : Prop :=
  ∃ n < 256, bus.ShowsText offs n ∧ bus.Shows (byteAddr offs n) ∧
    bus.mmu.dataAt (byteAddr offs n).toNat = 0

/-- No more than the 256 bytes of the buffer are stored, and there is a zero in them when
the host is asked for a file.  For a string that has no end in the buffer or in what can be
read, the host is not asked, and the guest is stopped or told of an error. -/
structure Machine.OpenContract (m : Machine) (host : Host) (path flags mode : Word) : Prop where
  stored : ∀ dst bus', busReadString host.residue m.bus (wide path) = .ok (dst, bus') →
    dst.length ≤ 256
  terminated : ∀ more m', sysOpen host m path flags mode = .ok (more, m') → m'.calls ≠ m.calls →
    ∃ dst bus', busReadString host.residue m.bus (wide path) = .ok (dst, bus') ∧ 0 ∈ dst
  refused : ¬ m.bus.HoldsPath (wide path) →
    ∃ more m', sysOpen host m path flags mode = .ok (more, m') ∧ m'.calls = m.calls ∧
      (more = false ∨ m'.a0.toInt < 0)

/-- The string ends so, or over a free bus what can be read of it ends there at an address
that no device has. -/
def Bus.EndsPath (bus : Bus) (offs : Size) : Prop :=
  bus.HoldsPath offs ∨ bus.mutex = false ∧ ∃ n < 256, bus.ShowsText offs n ∧
    bus.Unmapped (byteAddr offs n)

section Open

variable {host : Host} {m : Machine} {path flags mode : Word} {dst : List (BitVec 8)} {bus' : Bus}

theorem sysOpen_locked (hlock : m.bus.mutex = true) :
    sysOpen host m path flags mode = .error .deadlock := by
  rw [sysOpen, busReadString_locked hlock]
  rfl

/-- The path fits, and the host is asked. -/
theorem sysOpen_opens (host : Host) (flags mode : Word)
    (hread : busReadString host.residue m.bus (wide path) = .ok (dst, bus'))
    (hlength : dst.length ≤ 256) (hstatus : bus'.status = .ok) :
    sysOpen host m path flags mode =
      .ok (true, ((m.withBus bus').call (.openFile (dst.takeWhile (· ≠ 0)) flags mode)).setA0
        (host.openFile (dst.takeWhile (· ≠ 0)) flags mode)) := by
  rw [sysOpen, hread, Transition.ok_bind]
  simp only
  rw [if_neg (Nat.not_lt.mpr hlength), if_neg (not_not_intro hstatus)]
  rfl

/-- The path fits, and ends at an address that no device has. -/
theorem sysOpen_fails (host : Host) (flags mode : Word)
    (hread : busReadString host.residue m.bus (wide path) = .ok (dst, bus'))
    (hlength : dst.length ≤ 256) (hstatus : bus'.status ≠ .ok) :
    sysOpen host m path flags mode = .ok (false, m.withBus bus') := by
  rw [sysOpen, hread, Transition.ok_bind]
  simp only
  rw [if_neg (Nat.not_lt.mpr hlength), if_pos hstatus]
  rfl

theorem setA0_calls (m : Machine) (c : HostCall) (v : Word) :
    ((m.call c).setA0 v).calls ≠ m.calls := by
  intro h
  have hlength := congrArg List.length h
  have hcalls : ((m.call c).setA0 v).calls.length = m.calls.length + 1 := List.length_append
  omega

/-- Each address is one of RAM, of the CSR device or of no device. -/
def Bus.Divided (bus : Bus) : Prop := ∀ a, bus.AtRam a ∨ bus.AtCsr a ∨ bus.Unmapped a

theorem emulatorBus_divided {ram csr : DeviceState} {mutex : Bool} {status : BusStatus}
    {mmu : Mmu} : (emulatorBus ram csr mutex status mmu).Divided := by
  intro a
  cases hram : (ramDevice .ready).covers a with
  | true => exact Or.inl ⟨0, ramDevice ram, emulatorBus_ram hram, rfl⟩
  | false =>
      cases hcsr : (csrMmioDevice .ready).covers a with
      | true => exact Or.inr (Or.inl ⟨1, csrMmioDevice csr, emulatorBus_csr hram hcsr, rfl⟩)
      | false => exact Or.inr (Or.inr (emulatorBus_unmapped hram hcsr))

/-- Where what can be read ends, other than at an unmapped address, the loop stores a zero
if the stack held one. -/
theorem busReadString_stop {bus : Bus} {offs : Size} {n : Nat} (hfree : bus.mutex = false)
    (hsized : bus.mmu.size.toNat < 2 ^ 63) (htext : bus.ShowsText offs n)
    (hstop : ¬ (bus.Shows (byteAddr offs n) ∧ bus.mmu.dataAt (byteAddr offs n).toNat ≠ 0))
    (hmapped : bus.AtRam (byteAddr offs n) ∨ bus.AtCsr (byteAddr offs n)) :
    ∃ bus', bus'.status = .ok ∧
      busReadString (fun _ => 0) bus offs = .ok (bus.text offs n ++ [0], bus') := by
  rcases hmapped with hram | hcsr
  · by_cases hlets : bus.mmu.Lets Perm.Readable (byteAddr offs n).toNat
    · have hzero : bus.mmu.dataAt (byteAddr offs n).toNat = 0 := by
        by_contra hne
        exact hstop ⟨⟨hram, hlets⟩, hne⟩
      obtain ⟨bus', -, hstatus, hread⟩ := busReadString_zero hfree hsized htext ⟨hram, hlets⟩ hzero
      rw [Bus.text_succ, hzero] at hread
      exact ⟨bus', hstatus, hread _⟩
    · obtain ⟨bus', -, hstatus, hread⟩ :=
        busReadString_denied hfree hsized htext hram hlets fun _ => 0
      rw [if_pos rfl] at hread
      exact ⟨bus', hstatus, hread⟩
  · obtain ⟨bus', -, hstatus, hread⟩ := busReadString_csr hfree hsized htext hcsr
    exact ⟨bus', hstatus, hread _⟩

/-- Over a locked bus the call does not return, and asks the host for nothing. -/
theorem openContract_locked (host : Host) (flags mode : Word) (hlock : m.bus.mutex = true)
    (hpath : m.bus.HoldsPath (wide path)) : m.OpenContract host path flags mode := by
  refine ⟨?_, ?_, fun hnot => absurd hpath hnot⟩
  · intro dst bus' hread
    rw [busReadString_locked hlock] at hread
    cases hread
  · intro more m' hcall
    rw [sysOpen_locked hlock] at hcall
    cases hcall

theorem openContract_holdsPath (host : Host) (flags mode : Word) (hfree : m.bus.mutex = false)
    (hsized : m.bus.mmu.size.toNat < 2 ^ 63) (hpath : m.bus.HoldsPath (wide path)) :
    m.OpenContract host path flags mode := by
  obtain ⟨n, hn, htext, hend, hzero⟩ := hpath
  obtain ⟨bus', -, -, hread⟩ := busReadString_zero hfree hsized htext hend hzero
  refine ⟨?_, ?_, fun hnot => absurd ⟨n, hn, htext, hend, hzero⟩ hnot⟩
  · intro dst bus'' hread'
    rw [hread] at hread'
    cases hread'
    rw [Bus.text_length]
    omega
  · intro more m' _ _
    refine ⟨_, _, hread _, ?_⟩
    rw [Bus.text_succ, hzero]
    exact List.mem_append_right _ (List.mem_singleton.mpr rfl)

/-- The bus answers 0xde at an address that no device has, and the call fails. -/
theorem openContract_unmapped (host : Host) (flags mode : Word) (hfree : m.bus.mutex = false)
    (hsized : m.bus.mmu.size.toNat < 2 ^ 63) {n : Nat} (hn : n < 256)
    (htext : m.bus.ShowsText (wide path) n) (hnone : m.bus.Unmapped (byteAddr (wide path) n)) :
    m.OpenContract host path flags mode := by
  obtain ⟨bus', -, hstatus, hread⟩ := busReadString_unmapped hfree hsized htext hnone
  have hlength : (m.bus.text (wide path) n ++ [0xde]).length ≤ 256 := by
    rw [List.length_append, Bus.text_length, List.length_singleton]
    omega
  have hfails := sysOpen_fails host flags mode (hread host.residue) hlength
    (by rw [hstatus]; exact nofun)
  refine ⟨?_, ?_, ?_⟩
  · intro dst bus'' hread'
    rw [hread] at hread'
    cases hread'
    exact hlength
  · intro more m' hcall hcalls
    rw [hfails] at hcall
    cases hcall
    exact absurd rfl hcalls
  · intro _
    exact ⟨false, _, hfails, rfl, Or.inl rfl⟩

/-- A path that does not end in the buffer, and meets the contract when the stack holds
zeros, ends at an unmapped address. -/
theorem Machine.OpenContract.unmapped {host : Host} (hresidue : host.residue = fun _ => 0)
    (hcontract : m.OpenContract host path flags mode) (hsized : m.bus.mmu.size.toNat < 2 ^ 63)
    (hdivided : m.bus.Divided) (hpath : ¬ m.bus.HoldsPath (wide path)) :
    m.bus.mutex = false ∧ ∃ n < 256, m.bus.ShowsText (wide path) n ∧
      m.bus.Unmapped (byteAddr (wide path) n) := by
  obtain ⟨hstored, -, hrefused⟩ := hcontract
  obtain ⟨more, m', hcall, hcalls, -⟩ := hrefused hpath
  have hfree : m.bus.mutex = false := by
    by_contra hlock
    rw [sysOpen_locked (Bool.not_eq_false _ ▸ hlock)] at hcall
    cases hcall
  refine ⟨hfree, ?_⟩
  obtain ⟨n, htext, hstop⟩ := m.bus.exists_stop (wide path)
  rcases or_assoc.mpr (hdivided (byteAddr (wide path) n)) with hmapped | hnone
  · obtain ⟨bus', hstatus, hread⟩ := busReadString_stop hfree hsized htext hstop hmapped
    rw [← hresidue] at hread
    rw [sysOpen_opens host flags mode hread (hstored _ _ hread) hstatus] at hcall
    cases hcall
    exact absurd hcalls (setA0_calls _ _ _)
  · obtain ⟨bus', -, -, hread⟩ := busReadString_unmapped hfree hsized htext hnone
    have hlength := hstored _ _ (hread _)
    rw [List.length_append, Bus.text_length, List.length_singleton] at hlength
    exact ⟨n, by omega, htext, hnone⟩

/-- Which paths meet the contract, whatever the stack holds. -/
theorem openContract_iff {ram csr : DeviceState} {mutex : Bool} {status : BusStatus} {mmu : Mmu}
    (hbus : m.bus = emulatorBus ram csr mutex status mmu) (hsized : mmu.size.toNat < 2 ^ 63)
    (host : Host) (path flags mode : Word) :
    (∀ residue, m.OpenContract { host with residue := residue } path flags mode) ↔
      m.bus.EndsPath (wide path) := by
  have hmmu : m.bus.mmu.size.toNat < 2 ^ 63 := by
    rw [hbus]
    exact hsized
  have hdivided : m.bus.Divided := by
    rw [hbus]
    exact emulatorBus_divided
  constructor
  · intro hcontract
    by_cases hpath : m.bus.HoldsPath (wide path)
    · exact Or.inl hpath
    · exact Or.inr ((hcontract fun _ => 0).unmapped rfl hmmu hdivided hpath)
  · rintro (hpath | ⟨hfree, n, hn, htext, hnone⟩) residue
    · cases hlock : m.bus.mutex with
      | true => exact openContract_locked _ flags mode hlock hpath
      | false => exact openContract_holdsPath _ flags mode hlock hmmu hpath
    · exact openContract_unmapped _ flags mode hfree hmmu hn htext hnone

/-- The file "ab". -/
theorem shortPath_contract :
    (callingMachine textMmu).OpenContract { quietHost with residue := fun _ => 0xaa } 0x10000 0 0 :=
  (openContract_iff (show (callingMachine textMmu).bus = emulatorBus .ready .ready false .ok textMmu
    from rfl) (by decide) quietHost 0x10000 0 0).mpr
    (Or.inl ⟨2, by decide, textMmu_text, textMmu_shows (by omega), rfl⟩) _

/-- A memory of 0x1000 bytes, which are all 0x61 and can be read. -/
def longMmu : Mmu := { rawMmu with data := fun _ => 0x61, perm := fun _ => mpermRead }

theorem longMmu_text : (mainBus longMmu).ShowsText 0x10000 0x1000 := by
  intro j hj
  have hstart : (0x10000 : Size).toNat = 0x10000 := rfl
  have haddr := @byteAddr_toNat 0x10000 j (by omega)
  have hcovers : (ramDevice .ready).covers (byteAddr 0x10000 j) = true := by
    rw [ramDevice_covers_range]
    omega
  have hbase : longMmu.base.toNat = 0x10000 := rfl
  have hsize : longMmu.size.toNat = 0x1000 := rfl
  refine ⟨⟨⟨0, ramDevice .ready, emulatorBus_ram hcovers, rfl⟩, ?_⟩, ?_⟩
  · rw [haddr]
    refine ⟨?_, ?_, ?_⟩
    · show longMmu.base.toNat ≤ _
      omega
    · show _ < longMmu.base.toNat + longMmu.size.toNat
      omega
    · exact (show Perm.Readable mpermRead by decide)
  · exact (show (0x61 : BitVec 8) ≠ 0 by decide)

/-- A path that does not end in this memory: the copy runs over the buffer, and stops
behind the memory at whatever the stack held. -/
theorem longPath_overruns :
    (∃ dst bus', busReadString (fun _ => 0) (mainBus longMmu) 0x10000 = .ok (dst, bus') ∧
      dst.length = 0x1001) ∧
    ¬ (callingMachine longMmu).OpenContract quietHost 0x10000 0 0 := by
  have hcovers : (ramDevice .ready).covers (byteAddr 0x10000 0x1000) = true := by decide
  have hdenied : ¬ longMmu.Lets Perm.Readable (byteAddr 0x10000 0x1000).toNat := by
    intro hlets
    exact absurd hlets.2.1 (by decide)
  obtain ⟨bus', -, -, hread⟩ := busReadString_denied (show (mainBus longMmu).mutex = false from rfl)
    (by decide) longMmu_text ⟨0, ramDevice .ready, emulatorBus_ram hcovers, rfl⟩ hdenied fun _ => 0
  rw [if_pos rfl] at hread
  have hlength : ((mainBus longMmu).text 0x10000 0x1000 ++ [0]).length = 0x1001 := by
    rw [List.length_append, Bus.text_length, List.length_singleton]
  refine ⟨⟨_, bus', hread, hlength⟩, ?_⟩
  intro hcontract
  have hstored := hcontract.stored _ bus' hread
  rw [hlength] at hstored
  omega

end Open

end CRiscV
