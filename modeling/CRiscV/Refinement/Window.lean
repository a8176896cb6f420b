/-
What the core sees of a loaded file through RAM's window on the bus.

The window is a constant, and the memory behind it grows with the segments.  Where it does
not grow, a byte of the window shows what the last segment that covers it has there.
-/
import CRiscV.Bus.Run
import CRiscV.Refinement.Malformed
import CRiscV.Refinement.ReadOnly
import CRiscV.Transition.Trace

namespace CRiscV

open Transition (Logged Run Last)

/-! ## Hosts that a load survives -/

/-- On a host that leaves the program, and nobody else, `room` bytes from the start of each
block on, the access does not end the program.  A segment that extends the memory touches
permissions behind their block. -/
def LoaderAccess.Survives (room : Nat) : LoaderAccess → Prop
  | .read .. | .write .. => True
  | .array block width lo hi => lo < hi → width * hi ≤ max block.toNat room

instance (room : Nat) : (access : LoaderAccess) → Decidable (access.Survives room)
  | .read .. | .write .. => .isTrue trivial
  | .array _ width lo hi => inferInstanceAs (Decidable (lo < hi → width * hi ≤ _))

/-- A successful load that the host survives. -/
structure ElfFile.LoadSurvives (file : ElfFile) (heaps : Nat → Heap) (room : Nat) (mmu : Mmu)
    (elf : Elf32) (mmu' : Mmu) : Prop where
  result : elfLoad true heaps file mmu = .ok (some elf, mmu')
  survives : (elfLoadLogged true heaps file mmu).All (LoaderAccess.Survives room)

theorem LoaderAccess.Survives.mono {room room' : Nat} {access : LoaderAccess}
    (h : access.Survives room) (hle : room ≤ room') : access.Survives room' := by
  cases access with
  | read off n => trivial
  | write phdr vaddr n => trivial
  | array block width lo hi => exact fun hlt => Nat.le_trans (h hlt) (by omega)

/-- There is a host for every log. -/
theorem LoaderAccess.exists_room (log : List LoaderAccess) :
    ∃ room, ∀ access ∈ log, access.Survives room := by
  induction log with
  | nil => exact ⟨0, fun access haccess => absurd haccess List.not_mem_nil⟩
  | cons access log ih =>
      obtain ⟨room, hroom⟩ := ih
      obtain ⟨last, hlast⟩ : ∃ last, access.Survives last := by
        cases access with
        | read off n => exact ⟨0, trivial⟩
        | write phdr vaddr n => exact ⟨0, trivial⟩
        | array block width lo hi => exact ⟨width * hi, fun _ => Nat.le_max_right _ _⟩
      refine ⟨max room last, List.forall_mem_cons.mpr ⟨hlast.mono (Nat.le_max_right _ _), ?_⟩⟩
      exact fun other hother => (hroom other hother).mono (Nat.le_max_left _ _)

/-- An access inside its block survives on every host. -/
theorem LoaderAccess.Allowed.survives {file : ElfFile} {access : LoaderAccess}
    (h : access.Allowed file) (room : Nat) : access.Survives room := by
  cases access with
  | read off n => trivial
  | write phdr vaddr n => trivial
  | array block width lo hi => exact fun hlt => Nat.le_trans (h hlt) (Nat.le_max_left _ _)

/-! ## The byte behind the loop -/

/-- The byte at `v` can be read and is `x`. -/
def Mmu.Offers (mmu : Mmu) (v : Vaddr) (x : BitVec 8) : Prop :=
  (mmu.permOf v).Readable ∧ mmu.byteOf v = x

/-- The byte of the file that a segment puts at an address. -/
def ElfFile.segmentByte (file : ElfFile) (i : Nat) (v : Vaddr) : BitVec 8 :=
  file.byte ((file.phdr i).offset.toNat + (v.toNat - (file.phdr i).vaddr.toNat))

/-- The segment of turn `j` covers the byte at `v`. -/
def ElfFile.Sets (file : ElfFile) (v : Vaddr) (j : Nat) : Prop :=
  (file.phdr j).Loads ∧ v.toNat ∈ (file.phdr j).memory

/-- Turn `j` puts `x` there, from the file and as part of a readable segment. -/
def ElfFile.Puts (file : ElfFile) (v : Vaddr) (x : BitVec 8) (j : Nat) : Prop :=
  (file.phdr j).Loads ∧ (file.phdr j).Readable ∧ v.toNat ∈ (file.phdr j).fileBytes ∧
    file.segmentByte j v = x

/-- Of the turns whose segments cover the byte at `v`, the last one puts `x` there. -/
def ElfFile.LastPuts (file : ElfFile) (v : Vaddr) (x : BitVec 8) (n : Nat) : Prop :=
  Last (file.Sets v) (file.Puts v x) (List.range n)

section Turns

variable {file : ElfFile} {heaps : Nat → Heap} {mmu : Mmu} {v : Vaddr} {x : BitVec 8} {n : Nat}

theorem ElfFile.lastPuts_succ : file.LastPuts v x (n + 1) ↔
    file.Puts v x n ∨ ¬ file.Sets v n ∧ file.LastPuts v x n := by
  unfold ElfFile.LastPuts
  rw [List.range_succ]
  exact Transition.last_snoc

theorem ElfFile.Puts.sets (h : file.Puts v x n) (hfile : file.WellFormed) (hn : n < file.phnum) :
    file.Sets v n := ⟨h.1, Phdr.fileBytes_subset (hfile.sizes n hn h.1) h.2.2.1⟩

/-- In the segment of a turn the byte is what the turn puts there. -/
theorem ElfFile.Placed.offers_of_mem (hplaced : file.Placed heaps mmu (n + 1))
    (hsized : mmu.size.toNat < 2 ^ 63) (hsets : file.Sets v n) :
    (file.image heaps mmu (n + 1)).Offers v x ↔ file.Puts v x n := by
  obtain ⟨hloads, hv⟩ := hsets
  obtain ⟨hsegment, hgranted⟩ := hplaced n (Nat.lt_succ_self n) hloads
  have hbase := ((hplaced.mono (Nat.le_succ n)).image_layout hsized).1
  have hbase' := (hplaced.image_layout hsized).1
  unfold Mmu.Offers Mmu.permOf Mmu.byteOf ElfFile.Puts
  rw [hbase', file.image_succ_of_loads hloads]
  by_cases hfile : v.toNat ∈ (file.phdr n).fileBytes
  · rw [Mmu.loaded_perm_of_mem hbase hgranted hsegment hfile,
      Mmu.loaded_data_of_mem hbase hgranted hsegment hfile, segmentPerm_readable]
    exact ⟨fun h => ⟨hloads, h.1, hfile, h.2⟩, fun h => ⟨h.2.1, h.2.2.2⟩⟩
  · have htail : v.toNat ∈ (file.phdr n).tail := by
      obtain ⟨hlo, hhi⟩ := hv
      simp only [Phdr.fileBytes, Set.mem_Ico, not_and_or, Nat.not_le, Nat.not_lt] at hfile
      exact ⟨by omega, hhi⟩
    rw [Mmu.loaded_perm_of_tail hbase hgranted hsegment htail]
    exact iff_of_false (fun h => raw_not_readable h.1) (fun h => hfile h.2.2.1)

/-- A turn whose segment does not cover the byte leaves it as it is. -/
theorem ElfFile.Inside.offers_of_not_sets (hinside : file.Inside mmu)
    (hsized : mmu.size.toNat < 2 ^ 63) (hfile : file.WellFormed) (hn : n < file.phnum)
    (hlow : mmu.base.toNat ≤ v.toNat) (hkept : ¬ file.Sets v n) :
    (file.image heaps mmu (n + 1)).Offers v x ↔ (file.image heaps mmu n).Offers v x := by
  by_cases hloads : (file.phdr n).Loads
  · have hplaced := @ElfFile.Inside.placed file heaps mmu (n + 1) hinside hsized hn
    obtain ⟨hsegment, hgranted⟩ := hplaced n (Nat.lt_succ_self n) hloads
    have hbefore := hplaced.mono (Nat.le_succ n)
    have hbase := (hbefore.image_layout hsized).1
    have hbase' := (hplaced.image_layout hsized).1
    have hnever := ElfFile.not_extends hsized hbefore (by
      rw [hinside.extent_eq (Nat.le_of_lt hn)]
      exact Phdr.endOffset_le (hinside n hn hloads))
    have hsizes := hfile.sizes n hn hloads
    have hout : v.toNat ∉ (file.phdr n).memory := fun hmem => hkept ⟨hloads, hmem⟩
    have hout' : v.toNat ∉ (file.phdr n).fileBytes := fun hmem =>
      hout (Phdr.fileBytes_subset hsizes hmem)
    unfold Mmu.Offers Mmu.permOf Mmu.byteOf
    rw [hbase, hbase', file.image_succ_of_loads hloads,
      Mmu.loaded_perm_of_not_mem hbase hgranted hsegment hsizes hlow hout,
      Mmu.loaded_data_of_not_mem hbase hgranted hsegment hlow hout', Mmu.grown_inside hnever]
  · rw [file.image_succ_of_not_loads hloads]

/-- Inside the memory a byte of a segment is offered exactly when it was put there last. -/
theorem ElfFile.Inside.offers_iff (hinside : file.Inside mmu) (hsized : mmu.size.toNat < 2 ^ 63)
    (hfile : file.WellFormed) (hn : n ≤ file.phnum) {i : Nat} (hi : i < n)
    (hsets : file.Sets v i) : (file.image heaps mmu n).Offers v x ↔ file.LastPuts v x n := by
  have hlow := Nat.le_trans (hinside i (by omega) hsets.1).1 hsets.2.1
  induction n with
  | zero => omega
  | succ n ih =>
      have hplaced := @ElfFile.Inside.placed file heaps mmu (n + 1) hinside hsized hn
      rw [ElfFile.lastPuts_succ]
      by_cases hcovers : file.Sets v n
      · rw [hplaced.offers_of_mem hsized hcovers]
        exact (or_iff_left fun h => h.1 hcovers).symm
      · have hlt : i < n := by
          rcases Nat.lt_or_eq_of_le (Nat.le_of_lt_succ hi) with hlt | rfl
          · exact hlt
          · exact absurd hsets hcovers
        have hprev := ih (Nat.le_of_lt hn) hlt
        have hnot : ¬ file.Puts v x n := fun hputs => hcovers (hputs.sets hfile hn)
        rw [hinside.offers_of_not_sets hsized hfile hn hlow hcovers]
        exact hprev.trans ((or_iff_right hnot).trans (and_iff_right hcovers)).symm

/-- Where the segments are disjoint, the only one that covers a byte is the last. -/
theorem ElfFile.Apart.lastPuts (hapart : file.Apart) (hfile : file.WellFormed)
    (hn : n ≤ file.phnum) {i : Nat} (hi : i < n) (hputs : file.Puts v x i) :
    file.LastPuts v x n := by
  induction n with
  | zero => omega
  | succ n ih =>
      rw [ElfFile.lastPuts_succ]
      rcases Nat.lt_or_eq_of_le (Nat.le_of_lt_succ hi) with hlt | rfl
      · have hmem := (hputs.sets hfile (by omega)).2
        have hout : ¬ file.Sets v n := fun hsets =>
          hapart.not_mem (by omega) hn (Nat.ne_of_lt hlt) hputs.1 hsets.1 hmem hsets.2
        exact Or.inr ⟨hout, ih (Nat.le_of_lt hn) hlt⟩
      · exact Or.inl hputs

end Turns

/-! ## The window -/

/-- A bus with RAM in front of any other devices. -/
def ramFirst (others : List Device) (mmu : Mmu) : Bus :=
  { mmioDevices := ramDevice .ready :: others, mutex := false, status := .ok, mmu := mmu }

theorem ramDevice_covers_iff {state : DeviceState} {v : Vaddr} :
    (ramDevice state).covers (wide v) = true ↔
      ramStart.toNat ≤ v.toNat ∧ v.toNat < ramEnd.toNat := by
  rw [ramDevice_covers_range, wide_toNat]
  rfl

theorem ramFirst_routes {others : List Device} {mmu : Mmu} {offs : Size}
    (h : (ramDevice .ready).covers offs = true) :
    (ramFirst others mmu).Routes offs 0 (ramDevice .ready) := by
  unfold Bus.Routes
  rw [busFindDevice_fst]
  simp [ramFirst, List.findIdx?_cons, h]

theorem covers_of_ramFirst_routes {others : List Device} {mmu : Mmu} {offs : Size} {dev : Device}
    (h : (ramFirst others mmu).Routes offs 0 dev) : (ramDevice .ready).covers offs = true := by
  unfold Bus.Routes at h
  rw [busFindDevice_fst] at h
  obtain ⟨i, hfound, hi⟩ := Option.bind_eq_some_iff.mp h
  obtain ⟨d, -, hd⟩ := Option.map_eq_some_iff.mp hi
  cases hd
  exact (List.findIdx?_eq_some_iff_getElem.mp hfound).2.1

/-- A byte read of `v` goes to RAM, the first device, and returns `x` with the status `ok`. -/
def Bus.ShowsByte (bus : Bus) (v : Vaddr) (x : BitVec 8) : Prop :=
  (∃ dev, bus.Routes (wide v) 0 dev ∧ dev.driver = .ram) ∧
    ∀ residue, ∃ bus', busReadSingle residue bus (wide v) .byte = .ok (x.setWidth 32, bus') ∧
      bus'.status = .ok

section Reading

variable {others : List Device} {mmu : Mmu} {v : Vaddr} {x residue : BitVec 8}

theorem ramFirst_read_accepted (hcovers : (ramDevice .ready).covers (wide v) = true)
    (haccepts : mmu.Accepts v Width.byte.bytes mpermRead) :
    ∃ bus', busReadSingle residue (ramFirst others mmu) (wide v) .byte =
        .ok ((mmu.byteFrom v 0).setWidth 32, bus') ∧ bus'.status = .ok := by
  rw [← setWidth_wide v] at haccepts
  rw [busReadSingle_byte residue rfl (ramFirst_routes hcovers) rfl haccepts, setWidth_wide]
  exact ⟨_, rfl, rfl⟩

/-- A refused read returns what the stack held. -/
theorem ramFirst_read_refused (hcovers : (ramDevice .ready).covers (wide v) = true)
    (hrefuses : ¬ mmu.Accepts v Width.byte.bytes mpermRead) :
    ∃ bus', busReadSingle residue (ramFirst others mmu) (wide v) .byte =
        .ok (residue.setWidth 32, bus') ∧ bus'.status = .ok := by
  rw [← setWidth_wide v] at hrefuses
  obtain ⟨state, hread⟩ :=
    busReadSingle_denied residue rfl (ramFirst_routes hcovers) rfl hrefuses
  exact ⟨_, hread, rfl⟩

theorem setWidth_byte_inj {x y : BitVec 8} (h : x.setWidth 32 = y.setWidth 32) : x = y := by
  have hnat := congrArg BitVec.toNat h
  rw [BitVec.toNat_setWidth, BitVec.toNat_setWidth] at hnat
  exact BitVec.eq_of_toNat_eq (by omega)

theorem ramFirst_showsByte_iff :
    (ramFirst others mmu).ShowsByte v x ↔
      (ramDevice .ready).covers (wide v) = true ∧ mmu.Accepts v Width.byte.bytes mpermRead ∧
        mmu.byteFrom v 0 = x := by
  unfold Bus.ShowsByte
  constructor
  · rintro ⟨⟨dev, hroute, -⟩, hread⟩
    have hcovers := covers_of_ramFirst_routes hroute
    obtain ⟨bus', hvalue, -⟩ := hread (x + 1)
    refine ⟨hcovers, ?_⟩
    by_cases haccepts : mmu.Accepts v Width.byte.bytes mpermRead
    · obtain ⟨bus'', hbyte, -⟩ := @ramFirst_read_accepted others mmu v (x + 1) hcovers haccepts
      rw [hbyte] at hvalue
      have hsame := congrArg Prod.fst (Except.ok.inj hvalue)
      exact ⟨haccepts, setWidth_byte_inj hsame⟩
    · obtain ⟨bus'', hbyte, -⟩ := @ramFirst_read_refused others mmu v (x + 1) hcovers haccepts
      rw [hbyte] at hvalue
      have hsame := congrArg Prod.fst (Except.ok.inj hvalue)
      have hnat := congrArg BitVec.toNat (setWidth_byte_inj hsame)
      have hone : (1 : BitVec 8).toNat = 1 := rfl
      rw [BitVec.toNat_add, hone] at hnat
      have hlt := x.isLt
      omega
  · rintro ⟨hcovers, haccepts, hbyte⟩
    refine ⟨⟨_, ramFirst_routes hcovers, rfl⟩, ?_⟩
    intro residue
    rw [← hbyte]
    exact ramFirst_read_accepted hcovers haccepts

theorem Mmu.offers_iff (hsized : mmu.size.toNat < 2 ^ 63) :
    mmu.Accepts v Width.byte.bytes mpermRead ∧ mmu.byteFrom v 0 = x ↔
      mmu.Holds v 1 ∧ mmu.Offers v x := by
  have hone : Width.byte.bytes.toNat = 1 := rfl
  rw [Mmu.accepts_read_iff hsized Width.byte.bytes_lt, hone, and_assoc]
  refine and_congr_right fun hholds => ?_
  unfold Mmu.Offers
  rw [hholds.permOf_eq, hholds.byteOf_eq]
  refine and_congr_left fun _ => ?_
  constructor
  · intro h
    exact h 0 (Nat.lt_succ_self 0)
  · intro h i hi
    have hzero : i = 0 := by omega
    rwa [hzero]

end Reading

/-- Every file byte of a readable segment is shown by the bus. -/
def ElfFile.Visible (file : ElfFile) (bus : Bus) : Prop :=
  ∀ i < file.phnum, (file.phdr i).Loads → (file.phdr i).Readable →
    ∀ v : Vaddr, v.toNat ∈ (file.phdr i).fileBytes → bus.ShowsByte v (file.segmentByte i v)

/-- The window of RAM, the first device, is that of the memory. -/
def Bus.WindowsAgree (bus : Bus) : Prop :=
  ∃ dev, bus.mmioDevices[0]? = some dev ∧
    Set.Ico dev.baseAddress.toNat (dev.baseAddress.toNat + dev.size.toNat) =
      Set.Ico bus.mmu.base.toNat (bus.mmu.base.toNat + bus.mmu.size.toNat)

/-- No call moves a window. -/
theorem Bus.SameFrame.windowsAgree {bus bus' : Bus} (h : bus.SameFrame bus')
    (hagree : bus.WindowsAgree) : bus'.WindowsAgree := by
  obtain ⟨hwiring, data, perm, dirty, state, hmmu⟩ := h
  obtain ⟨dev, hdev, hwindow⟩ := hagree
  have hhead : (bus'.mmioDevices.map Device.wiring)[0]? = some dev.wiring := by
    rw [show bus'.mmioDevices.map Device.wiring = bus.mmioDevices.map Device.wiring from hwiring,
      List.getElem?_map, hdev]
    rfl
  rw [List.getElem?_map] at hhead
  obtain ⟨dev', hdev', hsame⟩ := Option.map_eq_some_iff.mp hhead
  have hbase : dev'.baseAddress = dev.baseAddress := congrArg (fun w => w.2.1) hsame
  have hsize : dev'.size = dev.size := congrArg (fun w => w.2.2.1) hsame
  refine ⟨dev', hdev', ?_⟩
  rw [hbase, hsize, hmmu]
  exact hwindow

/-- The last segment that covers a file byte of a readable segment puts it there. -/
def ElfFile.Reachable (file : ElfFile) : Prop :=
  ∀ i < file.phnum, (file.phdr i).Loads → (file.phdr i).Readable →
    ∀ v : Vaddr, v.toNat ∈ (file.phdr i).fileBytes →
      file.LastPuts v (file.segmentByte i v) file.phnum

theorem ElfFile.Apart.reachable {file : ElfFile} (hapart : file.Apart) (hfile : file.WellFormed) :
    file.Reachable := fun _ hi hloads hreadable _ hv =>
  hapart.lastPuts hfile (Nat.le_refl _) hi ⟨hloads, hreadable, hv, rfl⟩

/-- The segments end at `RAM_END` or before it. -/
def ElfFile.EndsInRam (file : ElfFile) : Prop :=
  ∀ i < file.phnum, (file.phdr i).Loads →
    (file.phdr i).vaddr.toNat + (file.phdr i).memsz.toNat ≤ ramEnd.toNat

section Emulator

variable {file : ElfFile} {heaps : Nat → Heap} {mmu : Mmu} {others : List Device}

theorem ElfFile.EndsInRam.inside (hends : file.EndsInRam)
    (hfresh : mmu.Fresh ramStart (wide ramSize)) (hstarts : file.StartsAt ramStart) :
    file.Inside mmu := by
  have hnumbers : ramStart.toNat + ramSize.toNat = ramEnd.toNat := by decide
  intro i hi hloads
  unfold Mmu.Holds
  rw [hfresh.base, hfresh.size, wide_toNat, hnumbers]
  exact ⟨hstarts i hi hloads, hends i hi hloads⟩

theorem ElfFile.Inside.visible_iff (hinside : file.Inside mmu)
    (hfresh : mmu.Fresh ramStart (wide ramSize)) (hfile : file.WellFormed) :
    file.Visible (ramFirst others (file.image heaps mmu file.phnum)) ↔ file.Reachable := by
  have hsized : mmu.size.toNat < 2 ^ 63 := hfresh.size ▸ hfresh.sized
  have hplaced := @ElfFile.Inside.placed file heaps mmu _ hinside hsized (Nat.le_refl _)
  have hnumbers : ramStart.toNat + ramSize.toNat = ramEnd.toNat := by decide
  refine forall₂_congr fun i hi => forall₂_congr fun hloads _ => forall₂_congr fun v hv => ?_
  have hmem := Phdr.fileBytes_subset (hfile.sizes i hi hloads) hv
  have hholds := hinside i hi hloads
  unfold Mmu.Holds at hholds
  rw [hfresh.base, hfresh.size, wide_toNat, hnumbers] at hholds
  rw [ramFirst_showsByte_iff, ramDevice_covers_iff, Mmu.offers_iff (hplaced.image_size hsized),
    hinside.offers_iff hsized hfile (Nat.le_refl _) hi ⟨hloads, hmem⟩]
  obtain ⟨hlo, hhi⟩ := hmem
  have hwindow : ramStart.toNat ≤ v.toNat ∧ v.toNat < ramEnd.toNat := by omega
  exact (and_iff_right hwindow).trans
    (and_iff_right (hplaced.holds hsized hi hloads ⟨hlo, hhi⟩))

theorem ElfFile.Placed.windowsAgree_iff (hplaced : file.Placed heaps mmu file.phnum)
    (hfresh : mmu.Fresh ramStart (wide ramSize)) :
    (ramFirst others (file.image heaps mmu file.phnum)).WindowsAgree ↔ file.EndsInRam := by
  have hsized : mmu.size.toNat < 2 ^ 63 := hfresh.size ▸ hfresh.sized
  obtain ⟨hbase, hextent⟩ := hplaced.image_layout hsized
  have hstart : (file.image heaps mmu file.phnum).base = ramStart := hbase.trans hfresh.base
  have hsize : (file.image heaps mmu file.phnum).size.toNat = (file.extent mmu file.phnum).size :=
    congrArg Extent.size hextent
  have hnumbers : ramStart.toNat + ramSize.toNat = ramEnd.toNat ∧ 0 < ramSize.toNat := by decide
  have hstarts : file.StartsAt ramStart := fun i hi hloads =>
    hfresh.base ▸ (hplaced i hi hloads).1
  have hinit : mmu.size.toNat = ramSize.toNat := by
    rw [hfresh.size, wide_toNat]
  have hwindows : (ramFirst others (file.image heaps mmu file.phnum)).WindowsAgree ↔
      (file.extent mmu file.phnum).size = ramSize.toNat := by
    rw [← hsize]
    constructor
    · rintro ⟨dev, hdev, hwindow⟩
      cases hdev
      have hfirst : Set.Ico ramStart.toNat (ramStart.toNat + ramSize.toNat) =
          Set.Ico (file.image heaps mmu file.phnum).base.toNat
            ((file.image heaps mmu file.phnum).base.toNat +
              (file.image heaps mmu file.phnum).size.toNat) := hwindow
      rw [hstart, Set.Ico_eq_Ico_iff (Or.inl (by omega))] at hfirst
      omega
    · intro hsame
      refine ⟨ramDevice .ready, rfl, ?_⟩
      show Set.Ico ramStart.toNat (ramStart.toNat + ramSize.toNat) =
        Set.Ico (file.image heaps mmu file.phnum).base.toNat
          ((file.image heaps mmu file.phnum).base.toNat +
            (file.image heaps mmu file.phnum).size.toNat)
      rw [hstart, hsame]
  rw [hwindows]
  constructor
  · intro hsame i hi hloads
    have hend := @ElfFile.endOffset_le_extent file mmu file.phnum i hi hloads
    rw [hsame, Phdr.endOffset, hfresh.base] at hend
    omega
  · intro hends
    rw [(hends.inside hfresh hstarts).extent_eq (Nat.le_refl _)]
    exact hinit

end Emulator

/-- On every host that survives the load, the file bytes of the readable segments are visible
through the bus and RAM's window stays that of the memory, in every state of the bus behind the
load, exactly when no segment ends beyond `RAM_END` and the last segment that covers a byte of
a readable one puts it there. -/
theorem loaded_visible_iff {heap : Heap} {mmu : Mmu} {file : ElfFile}
    (hinit : mmuInit heap ramStart (wide ramSize) = .ok (some mmu)) (hfile : file.WellFormed)
    (hstarts : file.StartsAt ramStart) (others : List Device) :
    (∀ heaps room elf mmu', file.LoadSurvives heaps room mmu elf mmu' →
        file.Visible (ramFirst others mmu') ∧
          ∀ calls bus, Run BusStep (ramFirst others mmu') calls bus → bus.WindowsAgree) ↔
      file.EndsInRam ∧ file.Reachable := by
  have hfresh := mmuInit_fresh hinit
  have hsized : mmu.size.toNat < 2 ^ 63 := hfresh.size ▸ hfresh.sized
  constructor
  · intro hloaded
    have hstarts' : file.StartsAt mmu.base := by
      rw [hfresh.base]
      exact hstarts
    have hplaced := @ElfFile.StartsAt.placed file (fun _ => generousHeap) mmu _ hstarts' hsized
      (fun _ => generousHeap_generous) (Nat.le_refl _)
    have hload := (elfLoad_iff hfile hsized).mpr ⟨rfl, hplaced, rfl, rfl⟩
    obtain ⟨room, hroom⟩ :=
      LoaderAccess.exists_room (elfLoadLogged true (fun _ => generousHeap) file mmu).log
    obtain ⟨hvisible, hagree⟩ := hloaded _ room _ _ ⟨hload, hroom⟩
    have hends := (hplaced.windowsAgree_iff hfresh).mp (hagree _ _ .nil)
    exact ⟨hends, ((hends.inside hfresh hstarts).visible_iff hfresh hfile).mp hvisible⟩
  · rintro ⟨hends, hreachable⟩ heaps room elf mmu' ⟨hload, -⟩
    obtain ⟨-, hplaced, rfl, -⟩ := (elfLoad_iff hfile hsized).mp hload
    refine ⟨((hends.inside hfresh hstarts).visible_iff hfresh hfile).mpr hreachable, ?_⟩
    intro calls bus hrun
    have hstart := (@ElfFile.Placed.windowsAgree_iff file heaps mmu others hplaced hfresh).mpr
      hends
    induction hrun with
    | nil => exact hstart
    | snoc _ hstep ih => exact (busCall_frame hstep).windowsAgree ih

theorem noteFile_endsInRam : noteFile.EndsInRam := by
  intro i hi hloads
  rw [noteFile_loads hi hloads, noteFile_segment]
  decide

/-- The segment of a note file is inside RAM, and the bus shows it. -/
theorem noteFile_visible :
    mmuInit generousHeap ramStart (wide ramSize) = .ok (some initialMmu) ∧
    ∃ elf mmu', noteFile.LoadSurvives (fun _ => generousHeap) 0 initialMmu elf mmu' ∧
      noteFile.Visible (mainBus mmu') ∧ (mainBus mmu').WindowsAgree := by
  have hvisible := (loaded_visible_iff mmuInit_initial noteFile_wellFormed noteFile_startsAt_ram
    [csrMmioDevice .ready]).mpr
      ⟨noteFile_endsInRam, noteFile_apart.reachable noteFile_wellFormed⟩
  have hsized : initialMmu.size.toNat < 2 ^ 63 := by decide
  have hplaced := @ElfFile.Inside.placed noteFile (fun _ => generousHeap) initialMmu _
    noteFile_inside_ram hsized (Nat.le_refl _)
  have hall := @ElfFile.Sound.all noteFile (fun _ => generousHeap) initialMmu
    (noteFile_wellFormed.sound noteFile_startsAt_ram) hsized initialMmu_covers.backed
    fun _ i hi => noteFile_inside_ram.fits initialMmu_covers hi
  have hload : noteFile.LoadSurvives (fun _ => generousHeap) 0 initialMmu _ _ :=
    ⟨(elfLoad_iff noteFile_wellFormed hsized).mpr ⟨rfl, hplaced, rfl, rfl⟩,
      fun access haccess => (hall access haccess).survives 0⟩
  obtain ⟨hshown, hagree⟩ := hvisible _ _ _ _ hload
  exact ⟨mmuInit_initial, _, _, hload, hshown, hagree _ _ .nil⟩

theorem segmentFile_wellFormed : (segmentFile 0x7fffc 4 4).WellFormed where
  header := by
    rw [segmentFile_size]
    decide
  eiClass := rfl
  eiData := rfl
  table := by
    have hphoff : (segmentFile 0x7fffc 4 4).phoff = 52 := rfl
    have hphnum : (segmentFile 0x7fffc 4 4).phnum = 1 := rfl
    rw [segmentFile_size, hphoff, hphnum]
    decide
  sizes := by
    intro i hi hloads
    rw [Nat.lt_one_iff.mp hi]
    decide
  contents := by
    intro i hi hloads
    rw [Nat.lt_one_iff.mp hi, segmentFile_size]
    decide

/-- The block of permissions has 0x70000 bytes behind the extension, and the loader touches
four entries in front of byte 0x1c0000. -/
theorem segmentFile_survives :
    (elfLoadLogged true (fun _ => generousHeap) (segmentFile 0x7fffc 4 4) initialMmu).All
      (LoaderAccess.Survives 0x1c0000) := by
  have hlog : (elfLoadLogged true (fun _ => generousHeap) (segmentFile 0x7fffc 4 4)
      initialMmu).log =
      [.read 4 1, .read 5 1, .read 28 4, .read 44 2, .read 52 4, .read 60 4, .read 72 4,
        .array 0x70000 4 0x6fffc 0x70000, .write 52 0x7fffc 4, .read 56 4, .read 68 4,
        .array 0x70000 4 0x6fffc 0x70000, .array 0x70000 1 0x6fffc 0x70000,
        .array 0x70000 4 0x6fffc 0x70000, .array 0x70000 1 0x1bff 0x1c00, .read 84 4,
        .write 52 0x7fffc 4, .read 76 4, .array 0x70000 4 0x6fffc 0x70000,
        .write 52 0x7fffc 4, .read 24 4] := rfl
  unfold Logged.All
  rw [hlog]
  decide

/-- The load succeeds, and nobody answers for the last byte of the segment. -/
theorem segmentFile_hidden : ∃ elf mmu',
    mmuInit generousHeap ramStart (wide ramSize) = .ok (some initialMmu) ∧
    (segmentFile 0x7fffc 4 4).StartsAt ramStart ∧
    (segmentFile 0x7fffc 4 4).LoadSurvives (fun _ => generousHeap) 0x1c0000 initialMmu elf mmu' ∧
    (0x7ffff : Vaddr).toNat ∈ ((segmentFile 0x7fffc 4 4).phdr 0).fileBytes ∧
    (segmentFile 0x7fffc 4 4).segmentByte 0 0x7ffff = 0 ∧
    (∀ residue, ∃ bus', busReadSingle residue (mainBus mmu') 0x7ffff .byte =
      .ok (0x0badc0de, bus') ∧ bus'.status = .addressNotFound) ∧
    ¬ (segmentFile 0x7fffc 4 4).Visible (mainBus mmu') ∧ ¬ (mainBus mmu').WindowsAgree := by
  have hsegment : (segmentFile 0x7fffc 4 4).phdr 0 =
      { type := 1, offset := 84, vaddr := 0x7fffc, filesz := 4, memsz := 4, flags := 4 } := rfl
  have hphnum : (segmentFile 0x7fffc 4 4).phnum = 1 := rfl
  have hfirst : 0 < (segmentFile 0x7fffc 4 4).phnum := by
    rw [hphnum]
    decide
  have hstarts : (segmentFile 0x7fffc 4 4).StartsAt ramStart := by
    intro i hi hloads
    rw [Nat.lt_one_iff.mp hi, hsegment]
    decide
  have hfresh := mmuInit_fresh mmuInit_initial
  have hplaced := @ElfFile.StartsAt.placed (segmentFile 0x7fffc 4 4) (fun _ => generousHeap)
    initialMmu _ hstarts hfresh.sized (fun _ => generousHeap_generous) (Nat.le_refl _)
  have hload := (elfLoad_iff segmentFile_wellFormed hfresh.sized).mpr ⟨rfl, hplaced, rfl, rfl⟩
  have hloads : ((segmentFile 0x7fffc 4 4).phdr 0).Loads := by
    rw [hsegment]
    rfl
  have hmem : (0x7ffff : Vaddr).toNat ∈ ((segmentFile 0x7fffc 4 4).phdr 0).fileBytes := by
    rw [hsegment]
    exact ⟨by decide, by decide⟩
  have hcovers : (ramDevice .ready).covers 0x7ffff = false := by decide
  refine ⟨_, _, mmuInit_initial, hstarts, ⟨hload, segmentFile_survives⟩, hmem, rfl, ?_, ?_, ?_⟩
  · intro residue
    rw [mainBus_eq, busReadSingle_unmapped rfl (emulatorBus_unmapped hcovers (by decide))]
    exact ⟨_, rfl, rfl⟩
  · intro hvisible
    have hreadable : ((segmentFile 0x7fffc 4 4).phdr 0).Readable := by
      rw [hsegment]
      decide
    obtain ⟨⟨dev, hroute, -⟩, -⟩ := hvisible 0 hfirst hloads hreadable _ hmem
    have hcovered := covers_of_ramFirst_routes hroute
    exact absurd (hcovers.symm.trans hcovered) Bool.false_ne_true
  · intro hagree
    have hends := (@ElfFile.Placed.windowsAgree_iff (segmentFile 0x7fffc 4 4) _ initialMmu
      [csrMmioDevice .ready] hplaced hfresh).mp hagree 0 hfirst hloads
    rw [hsegment] at hends
    exact absurd hends (by decide)

end CRiscV
