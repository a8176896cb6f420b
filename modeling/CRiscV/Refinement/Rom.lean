/-
What `load_into_ram` makes of the memory.  It does not look at the status of the bus: a word
that RAM does not take is left out, and the loop goes on behind it.
-/
import CRiscV.Emulator.Boot
import CRiscV.Refinement.Elements
import CRiscV.Refinement.Provenance

namespace CRiscV

open Transition (Yields)

/-- RAM takes a word at this address. -/
def Bus.TakesWord (bus : Bus) (a : Size) : Prop :=
  (ramDevice .ready).covers a = true ∧ bus.mmu.Accepts (a.setWidth 32) 4 mpermWrite

instance (bus : Bus) (a : Size) : Decidable (bus.TakesWord a) :=
  inferInstanceAs (Decidable ((ramDevice .ready).covers a = true ∧
    bus.mmu.outside (a.setWidth 32) 4 = false ∧
      mmuCheckAccess bus.mmu (a.setWidth 32) 4 mpermWrite = true))

/-- Where word `i` goes. -/
def romAddr (baseAddr : Word) (i : Nat) : Size := wide baseAddr + BitVec.ofNat 64 i * 4

def romWord (baseAddr : Word) (rom : Nat → Word) (i : Nat) : Transfer where
  addr := (romAddr baseAddr i).setWidth 32
  count := 4
  src := Bytes.byteAt (rom i)

/-- The words that RAM takes, among the first `n`. -/
def Bus.romPatches (bus : Bus) (baseAddr : Word) (rom : Nat → Word) (n : Nat) :
    List (Patch (BitVec 8 × Perm)) :=
  ((List.range n).filter fun i => bus.TakesWord (romAddr baseAddr i)).map fun i =>
    (romWord baseAddr rom i).patch

section Word

variable {bus : Bus} {a : Size} {baseAddr : Word} {rom : Nat → Word} {n i : Nat}

theorem romAddr_toNat (hn : 4 * n < 2 ^ 63) :
    (romAddr baseAddr n).toNat = baseAddr.toNat + 4 * n := by
  have hbase := baseAddr.isLt
  have hfour : (4 : BitVec 64).toNat = 4 := rfl
  unfold romAddr
  rw [BitVec.toNat_add, BitVec.toNat_mul, BitVec.toNat_ofNat, wide_toNat, hfour]
  omega

/-- Addresses of RAM have 32 bits. -/
theorem Bus.TakesWord.addr (h : bus.TakesWord (romAddr baseAddr n)) (hn : 4 * n < 2 ^ 63) :
    (romWord baseAddr rom n).addr.toNat = baseAddr.toNat + 4 * n ∧
      baseAddr.toNat + 4 * n < 0x7ffff := by
  have hlt := (ramDevice_covers_range.mp h.1).2
  have haddr := @romAddr_toNat baseAddr n hn
  refine ⟨?_, by omega⟩
  rw [← haddr]
  exact setWidth_toNat _ (by omega)

theorem Bus.TakesWord.range (h : bus.TakesWord (romAddr baseAddr n)) (hn : 4 * n < 2 ^ 63) :
    (romWord baseAddr rom n).patch.range =
      Set.Ico (baseAddr.toNat + 4 * n) (baseAddr.toNat + 4 * n + 4) := by
  show Set.Ico _ _ = _
  rw [(h.addr hn).1]
  rfl

theorem Bus.romPatches_succ : bus.romPatches baseAddr rom (n + 1) =
    bus.romPatches baseAddr rom n ++
      if bus.TakesWord (romAddr baseAddr n) then [(romWord baseAddr rom n).patch] else [] := by
  unfold Bus.romPatches
  rw [List.range_succ, List.filter_append, List.map_append]
  by_cases htakes : bus.TakesWord (romAddr baseAddr n)
  · rw [if_pos htakes, List.filter_singleton, decide_eq_true htakes]
    rfl
  · rw [if_neg htakes, List.filter_singleton, decide_eq_false htakes]
    rfl

/-- The words lie one behind the other. -/
theorem Bus.mem_romPatches {p : Patch (BitVec 8 × Perm)} {x : Nat} (hn : 4 * n < 2 ^ 63)
    (hp : p ∈ bus.romPatches baseAddr rom n) (hx : x ∈ p.range) :
    x < baseAddr.toNat + 4 * n := by
  obtain ⟨i, hi, rfl⟩ := List.mem_map.mp hp
  obtain ⟨hlt, htakes⟩ := List.mem_filter.mp hi
  rw [List.mem_range] at hlt
  rw [(of_decide_eq_true htakes).range (by omega)] at hx
  have hend := hx.2
  omega

theorem Bus.romPatches_apart (hn : 4 * n < 2 ^ 63) :
    Patch.Apart (bus.romPatches baseAddr rom n) := by
  induction n with
  | zero => exact List.Pairwise.nil
  | succ n ih =>
      rw [Bus.romPatches_succ]
      by_cases htakes : bus.TakesWord (romAddr baseAddr n)
      · rw [if_pos htakes]
        refine List.pairwise_append.mpr ⟨ih (by omega), List.pairwise_singleton _ _, ?_⟩
        intro p hp q hq
        rw [List.mem_singleton.mp hq, htakes.range (by omega), Set.disjoint_left]
        intro x hx hx'
        have hlt := Bus.mem_romPatches (by omega) hp hx
        exact absurd hx'.1 (by omega)
      · rw [if_neg htakes, List.append_nil]
        exact ih (by omega)

/-- RAM takes a word by the cells that it goes to. -/
theorem Bus.takesWord_congr {bus' : Bus} (hsized : bus.mmu.size.toNat < 2 ^ 63)
    (hsize : bus'.mmu.size = bus.mmu.size)
    (hcells : ∀ x, a.toNat ≤ x → bus'.mmu.cells x = bus.mmu.cells x) :
    bus'.TakesWord a ↔ bus.TakesWord a := by
  have hfour : (4 : Size).toNat = 4 := rfl
  refine and_congr_right fun hcovers => ?_
  have hlt := (ramDevice_covers_range.mp hcovers).2
  have haddr : (a.setWidth 32 : Vaddr).toNat = a.toNat := setWidth_toNat a (by omega)
  rw [Mmu.accepts_write_iff hsized (by decide), Mmu.accepts_write_iff (by rwa [hsize]) (by decide),
    hfour, ← Mmu.holds_cells_iff (Q := fun _ c => c.2.Writable) (by omega),
    ← Mmu.holds_cells_iff (Q := fun _ c => c.2.Writable) (by omega), haddr]
  unfold Region.Holds
  refine forall_congr' fun i => forall_congr' fun _ => ?_
  rw [hcells (a.toNat + i) (by omega)]

end Word

/-! ## The loop -/

/-- The emulator's bus, released, with the memory where it is. -/
structure Bus.Waits (bus bus' : Bus) : Prop where
  main : ∃ ram csr status mmu, bus' = emulatorBus ram csr false status mmu
  base : bus'.mmu.base = bus.mmu.base
  size : bus'.mmu.size = bus.mmu.size

section Loop

variable {bus b : Bus} {a : Size} {value baseAddr : Word} {rom : Nat → Word} {n : Nat}

/-- A word that RAM does not take goes nowhere. -/
theorem busWriteSingle_word (hwaits : bus.Waits b) (hsized : bus.mmu.size.toNat < 2 ^ 63)
    (a : Size) (value : Word) :
    ∃ b', busWriteSingle b a value .word = .ok b' ∧ bus.Waits b' ∧
      if b.TakesWord a then
        ∀ x, b'.mmu.cells x = (b.mmu.cells x).map
          (Transfer.patch ⟨a.setWidth 32, 4, Bytes.byteAt value⟩ |>.apply x)
      else b'.mmu.cells = b.mmu.cells := by
  obtain ⟨⟨ram, csr, status, mmu, rfl⟩, hbase, hsize⟩ := hwaits
  have hsized' : mmu.size.toNat < 2 ^ 63 := by rwa [show mmu.size = bus.mmu.size from hsize]
  cases hcovers : (ramDevice .ready).covers a with
  | true =>
      rw [busWriteSingle_routed rfl (emulatorBus_ram hcovers) writable]
      by_cases haccepts : mmu.Accepts (a.setWidth 32) 4 mpermWrite
      · have hserve : writeRamSingle (ramDevice ram) mmu (a.setWidth 32) value .word =
            .ok (ramDevice .ready, mmu.written (Bytes.byteAt value) (a.setWidth 32) 4) :=
          @writeRamSingle_accepted (ramDevice ram) mmu _ value .word haccepts
        show ∃ b', (writeRamSingle (ramDevice ram) mmu _ value .word >>= _) = _ ∧ _
        rw [hserve, Transition.ok_bind]
        refine ⟨_, rfl, ⟨⟨_, _, _, _, rfl⟩, hbase, hsize⟩, ?_⟩
        rw [if_pos ⟨hcovers, haccepts⟩]
        have hcount : (4 : Size).toNat < 2 ^ 63 := by decide
        exact @Mmu.written_cells mmu ⟨a.setWidth 32, 4, Bytes.byteAt value⟩ hsized' hcount
          haccepts
      · obtain ⟨state, hserve⟩ : ∃ state,
            writeRamSingle (ramDevice ram) mmu (a.setWidth 32) value .word =
              .ok (ramDevice .error, { mmu with state := state }) :=
          @writeRamSingle_refused (ramDevice ram) mmu _ value .word haccepts
        show ∃ b', (writeRamSingle (ramDevice ram) mmu _ value .word >>= _) = _ ∧ _
        rw [hserve, Transition.ok_bind]
        refine ⟨_, rfl, ⟨⟨_, _, _, _, rfl⟩, hbase, hsize⟩, ?_⟩
        rw [if_neg fun htakes => haccepts htakes.2]
        rfl
  | false =>
      have hrefuses : ¬ (emulatorBus ram csr false status mmu).TakesWord a := by
        rintro ⟨htrue, -⟩
        rw [hcovers] at htrue
        cases htrue
      cases hcsr : (csrMmioDevice .ready).covers a with
      | true =>
          rw [busWriteSingle_routed rfl (emulatorBus_csr hcovers hcsr) writable]
          refine ⟨_, rfl, ⟨⟨_, _, _, _, rfl⟩, hbase, hsize⟩, ?_⟩
          rw [if_neg hrefuses]
          rfl
      | false =>
          rw [busWriteSingle_unmapped rfl (emulatorBus_unmapped hcovers hcsr)]
          refine ⟨_, rfl, ⟨⟨_, _, _, _, rfl⟩, hbase, hsize⟩, ?_⟩
          rw [if_neg hrefuses]

/-- The status of the bus is not looked at between two words. -/
theorem loadIntoRam_run (hwaits : bus.Waits bus) (hsized : bus.mmu.size.toNat < 2 ^ 63)
    (hn : 4 * n < 2 ^ 63) :
    ∃ b, (List.range n).foldlM
        (fun bus i => busWriteSingle bus (romAddr baseAddr i) (rom i) .word) bus = .ok b ∧
      bus.Waits b ∧ ∀ x, b.mmu.cells x =
        (bus.mmu.cells x).map (Patch.fold (bus.romPatches baseAddr rom n) x) := by
  induction n with
  | zero => exact ⟨bus, rfl, hwaits, fun x => Option.map_id'.symm⟩
  | succ n ih =>
      obtain ⟨b, hrun, hbefore, hcells⟩ := ih (by omega)
      obtain ⟨b', hword, hafter, hlaid⟩ :=
        busWriteSingle_word hbefore hsized (romAddr baseAddr n) (rom n)
      have haddr := @romAddr_toNat baseAddr n (by omega)
      -- the words before this one lie below it
      have hfresh : ∀ x, (romAddr baseAddr n).toNat ≤ x → b.mmu.cells x = bus.mmu.cells x := by
        intro x hx
        rw [hcells]
        cases bus.mmu.cells x with
        | none => rfl
        | some c =>
            refine congrArg some (Patch.fold_of_not_mem fun p hp hmem => ?_)
            have hlt := Bus.mem_romPatches (by omega) hp hmem
            omega
      have htakes := Bus.takesWord_congr hsized hbefore.size hfresh
      refine ⟨b', ?_, hafter, fun x => ?_⟩
      · rw [List.range_succ, List.foldlM_append, hrun, Transition.ok_bind]
        show (busWriteSingle _ _ _ _ >>= _) = _
        rw [hword]
        rfl
      · rw [Bus.romPatches_succ]
        by_cases hhere : bus.TakesWord (romAddr baseAddr n)
        · rw [if_pos (htakes.mpr hhere)] at hlaid
          rw [if_pos hhere, hlaid, hcells, Option.map_map]
          refine congrArg (Option.map · _) (funext fun c => ?_)
          rw [Patch.fold_append]
          rfl
        · rw [if_neg (mt htakes.mp hhere)] at hlaid
          rw [if_neg hhere, List.append_nil, hlaid, hcells]

/-- The memory that `load_into_ram` leaves.  Every word that RAM takes is in its place and
initialized; the others are dropped without a sign, and so are the bytes behind the last word. -/
theorem loadIntoRam_exact (bus : Bus) (baseAddr : Word) (rom : Nat → Word) (sizeInBytes : Size)
    (hmain : ∃ ram csr status mmu, bus = emulatorBus ram csr false status mmu)
    (hsized : bus.mmu.size.toNat < 2 ^ 63) (hsize : sizeInBytes.toNat < 2 ^ 63) :
    Patch.Apart (bus.romPatches baseAddr rom (sizeInBytes.toNat / 4)) ∧
    ∃ bus', loadIntoRam bus baseAddr rom sizeInBytes = .ok bus' ∧ bus.Waits bus' ∧
      ∀ a, bus'.mmu.cells a = (bus.mmu.cells a).map
        (Patch.fold (bus.romPatches baseAddr rom (sizeInBytes.toNat / 4)) a) := by
  have hwords : (sizeInBytes >>> 2).toNat = sizeInBytes.toNat / 4 := by
    rw [BitVec.toNat_ushiftRight, Nat.shiftRight_eq_div_pow]
  have hn : 4 * (sizeInBytes.toNat / 4) < 2 ^ 63 := by omega
  refine ⟨Bus.romPatches_apart hn, ?_⟩
  unfold loadIntoRam
  rw [hwords]
  exact loadIntoRam_run ⟨hmain, rfl, rfl⟩ hsized hn

/-- Nine bytes, the second word of which crosses the end of the memory. -/
theorem ninebytes_exact :
    Patch.Apart ((emulatorBus .ready .ready false .ok rawMmu).romPatches 0x10ffa (fun _ => 7) 2) ∧
    ∃ bus', loadIntoRam (emulatorBus .ready .ready false .ok rawMmu) 0x10ffa (fun _ => 7) 9 =
        .ok bus' ∧ (emulatorBus .ready .ready false .ok rawMmu).Waits bus' ∧
      ∀ a, bus'.mmu.cells a = (rawMmu.cells a).map (Patch.fold
        ((emulatorBus .ready .ready false .ok rawMmu).romPatches 0x10ffa (fun _ => 7) 2) a) :=
  loadIntoRam_exact (emulatorBus .ready .ready false .ok rawMmu) 0x10ffa (fun _ => 7) 9
    ⟨.ready, .ready, .ok, rawMmu, rfl⟩ (by decide) (by decide)

end Loop

end CRiscV
