/-
Allocations never overlap, as long as no segment leaves the bump pointer below
something that is in use: the MMU is then an allocator behind a bound.
-/
import CRiscV.Alloc.Bump
import CRiscV.Mmu.Segment

namespace CRiscV

open Transition (Run)
open Alloc (Bump BumpStep Claim)

/-! ## What a call claims -/

/-- The block that a call allocated. -/
def MmuEvent.block : MmuEvent → Option (Vaddr × Size)
  | .allocate size _ addr | .allocateRaw size addr => if addr = 0 then none else some (addr, size)
  | .setperm .. | .addMemory .. | .writeFrom .. | .readInto .. => none

/-- The segment that a call added. -/
def MmuEvent.segment : MmuEvent → Option (Vaddr × Size)
  | .addMemory _ addr size _ added => if added then some (addr, size) else none
  | .setperm .. | .allocate .. | .allocateRaw .. | .writeFrom .. | .readInto .. => none

/-- The addresses from `r.1` on. -/
def addresses (r : Vaddr × Size) : Set Nat := Set.Ico r.1.toNat (r.1.toNat + r.2.toNat)

def claimOf (fresh : Bool) (r : Vaddr × Size) : Claim Nat :=
  { lo := r.1.toNat, hi := r.1.toNat + r.2.toNat, fresh := fresh }

def MmuEvent.claim (event : MmuEvent) : Option (Claim Nat) :=
  match event.block with
  | some r => some (claimOf true r)
  | none => event.segment.map (claimOf false)

theorem claim_of_block {event : MmuEvent} {r : Vaddr × Size} (h : event.block = some r) :
    event.claim = some (claimOf true r) := by
  unfold MmuEvent.claim
  rw [h]

theorem claim_of_segment {event : MmuEvent} {r : Vaddr × Size} (h : event.segment = some r) :
    event.claim = some (claimOf false r) := by
  cases event with
  | addMemory heap addr size perm added =>
      unfold MmuEvent.claim
      rw [h]
      rfl
  | setperm | allocate | allocateRaw | writeFrom | readInto => cases h

/-! ## The condition -/

/-- Segments have 32-bit sizes, as in an ELF file, and blocks are below `2 ^ 31`. -/
def MmuEvent.Sized : MmuEvent → Prop
  | .addMemory _ _ size _ _ => size.toNat < 2 ^ 32
  | .allocate size _ _ | .allocateRaw size _ => size.toNat < 2 ^ 31
  | .setperm .. | .writeFrom .. | .readInto .. => True

/-- A segment inside the memory ends at the bump pointer or above it, no segment
extends the memory, and the pointer fits into 32 bits when a block is allocated. -/
def MmuEvent.KeepsPointer (mmu : Mmu) : MmuEvent → Prop
  | .addMemory heap addr size _ _ =>
      (mmu.Extends addr size → ¬ heap.GrantsAll (mmu.extendedSize addr size)) ∧
        (¬ mmu.Extends addr size → mmu.currVaddr ≤ wide addr + size)
  | .allocate .. | .allocateRaw .. => mmu.currVaddr.toNat < 2 ^ 32
  | .setperm .. | .writeFrom .. | .readInto .. => True

/-- A call within the sizes. -/
def SizedStep (mmu : Mmu) (event : MmuEvent) (mmu' : Mmu) : Prop :=
  MmuStep mmu event mmu' ∧ event.Sized

/-- One that also meets the condition. -/
def PointerStep (mmu : Mmu) (event : MmuEvent) (mmu' : Mmu) : Prop :=
  SizedStep mmu event mmu' ∧ event.KeepsPointer mmu

/-! ## The MMU as an allocator -/

/-- The bump pointer is the bound. -/
structure Mmu.Bumps (mmu : Mmu) (s : Bump Nat) : Prop where
  bound : s.bound = mmu.currVaddr.toNat
  sized : mmu.size.toNat < 2 ^ 63

section Step

variable {mmu mmu' : Mmu} {s : Bump Nat}

theorem Mmu.Bumps.layout (h : mmu.Bumps s) (hlayout : mmu.SameLayout mmu') : mmu'.Bumps s := by
  obtain ⟨data, perm, dirty, state, rfl⟩ := hlayout
  exact ⟨h.bound, h.sized⟩

theorem addMemory_bumps {heap : Heap} {addr : Vaddr} {size : Size} {perm : Perm} {added : Bool}
    (h : mmu.Bumps s) (hsize : size.toNat < 2 ^ 32)
    (hkeeps : (MmuEvent.addMemory heap addr size perm added).KeepsPointer mmu)
    (hadd : mmu.AddMemory heap addr size added mmu') :
    ∃ s', BumpStep s (MmuEvent.addMemory heap addr size perm added).claim s' ∧
      mmu'.Bumps s' := by
  obtain ⟨hrefused, hkept⟩ := hkeeps
  cases hadd with
  | inside hinside hlayout =>
      have hbound := hkept hinside
      rw [BitVec.le_def, ← h.bound, segment_end addr hsize] at hbound
      refine ⟨_, .claim s (claimOf false (addr, size)) (addr.toNat + size.toNat) hbound
        (Nat.le_refl _) (fun hfresh => absurd hfresh Bool.false_ne_true), ?_⟩
      apply Mmu.Bumps.layout _ hlayout
      exact ⟨(segment_end addr hsize).symm, h.sized⟩
  | extended hextends hgrants hlayout =>
      exact absurd hgrants (hrefused hextends)
  | refused hextends hgrants dataBlock permBlock hlayout =>
      refine ⟨s, .idle s, ?_⟩
      apply Mmu.Bumps.layout _ hlayout
      exact ⟨h.bound, h.sized⟩

/-- A block starts at the pointer and ends at or below the pointer behind it. -/
theorem allocate_bumps {size : Size} {perm : Perm} {addr : Vaddr} (h : mmu.Bumps s)
    (hsize : size.toNat < 2 ^ 31) (hcurr : mmu.currVaddr.toNat < 2 ^ 32)
    (hstep : mmuAllocate mmu size perm = .ok (addr, mmu')) :
    ∃ s', BumpStep s (MmuEvent.allocate size perm addr).claim s' ∧ mmu'.Bumps s' ∧
      (addr ≠ 0 → mmu'.Holds addr size.toNat) := by
  rcases mmuAllocate_cases hstep with ⟨rfl, rfl⟩ | ⟨haddr, hover, hfull, hinside, rfl⟩
  · exact ⟨s, .idle s, h, fun hne => absurd rfl hne⟩
  · have haligned := alignedSize_toNat (show size.toNat + 15 < 2 ^ 32 by omega)
    have hstart : addr.toNat = mmu.currVaddr.toNat := by
      rw [haddr, BitVec.toNat_setWidth, Nat.mod_eq_of_lt hcurr]
    have hend := segment_end addr (show (alignedSize size).toNat < 2 ^ 32 by omega)
    rw [BitVec.lt_def, hend] at hover
    have hne : addr ≠ 0 := by
      intro hzero
      rw [hzero] at hover
      have hnat : (0 : Vaddr).toNat = 0 := rfl
      omega
    have hblock : (MmuEvent.allocate size perm addr).block = some (addr, size) := if_neg hne
    unfold MmuEvent.claim
    rw [hblock]
    have hbound := h.bound
    refine ⟨_, .claim s (claimOf true (addr, size)) (addr.toNat + (alignedSize size).toNat)
      ?_ ?_ ?_, ?_, ?_⟩
    · omega
    · show addr.toNat + size.toNat ≤ _
      omega
    · intro hfresh
      show s.bound ≤ addr.toNat
      omega
    · exact ⟨hend.symm, h.sized⟩
    · intro hany
      exact (Mmu.outside_eq_false_iff h.sized (by omega)).mp hinside

/-- The two kinds of allocation return a block in the same way. -/
theorem holds_of_block {size : Size} {addr : Vaddr} (h : addr ≠ 0 → mmu.Holds addr size.toNat)
    (r : Vaddr × Size) (hr : (if addr = 0 then none else some (addr, size)) = some r) :
    mmu.Holds r.1 r.2.toNat := by
  by_cases hzero : addr = 0
  · rw [if_pos hzero] at hr
    cases hr
  · rw [if_neg hzero] at hr
    cases hr
    exact h hzero

theorem pointerStep_bumps {event : MmuEvent} (h : mmu.Bumps s)
    (hstep : PointerStep mmu event mmu') :
    ∃ s', BumpStep s event.claim s' ∧ mmu'.Bumps s' ∧
      ∀ r, event.block = some r → mmu'.Holds r.1 r.2.toNat := by
  obtain ⟨⟨hstep, hsized⟩, hkeeps⟩ := hstep
  have hidle : mmu.SameLayout mmu' → ∃ s', BumpStep s none s' ∧ mmu'.Bumps s' ∧
      ∀ r : Vaddr × Size, none = some r → mmu'.Holds r.1 r.2.toNat :=
    fun hlayout => ⟨s, .idle s, h.layout hlayout, fun r hr => nomatch hr⟩
  cases event with
  | setperm vaddr size perm => exact hidle (mmuSetperm_layout hstep)
  | writeFrom src vaddr size count => exact hidle (mmuWriteFrom_layout hstep)
  | readInto dst vaddr size count buf => exact hidle (mmuReadInto_layout hstep)
  | addMemory heap addr size perm added =>
      obtain ⟨s', hclaim, hbumps⟩ := addMemory_bumps h hsized hkeeps (mmuAddMemory_cases hstep)
      exact ⟨s', hclaim, hbumps, fun r hr => nomatch hr⟩
  | allocate size perm addr =>
      obtain ⟨s', hclaim, hbumps, hholds⟩ := allocate_bumps h hsized hkeeps hstep
      exact ⟨s', hclaim, hbumps, holds_of_block hholds⟩
  | allocateRaw size addr =>
      obtain ⟨s', hclaim, hbumps, hholds⟩ := allocate_bumps h hsized hkeeps hstep
      exact ⟨s', hclaim, hbumps, holds_of_block hholds⟩

end Step

/-! ## Runs -/

/-- Blocks lie in the memory and apart from every block and segment before them, in
every run that keeps the bump pointer. -/
theorem allocation_apart {heap : Heap} {base : Vaddr} {size : Size} {mmu₀ mmu mmu' : Mmu}
    {events : List MmuEvent} {event : MmuEvent} {r : Vaddr × Size}
    (hinit : mmuInit heap base size = .ok (some mmu₀)) (hrun : Run PointerStep mmu₀ events mmu)
    (hstep : PointerStep mmu event mmu') (hblock : event.block = some r) :
    mmu'.Holds r.1 r.2.toNat ∧
      ∀ e ∈ events, ∀ q, e.block = some q ∨ e.segment = some q →
        Disjoint (addresses r) (addresses q) := by
  have hfresh := mmuInit_fresh hinit
  have hstart : mmu₀.Bumps (Bump.start mmu₀.currVaddr.toNat) :=
    ⟨rfl, hfresh.size ▸ hfresh.sized⟩
  have hsim : ∀ {m : Mmu} {s : Bump Nat} {e : MmuEvent} {m' : Mmu}, m.Bumps s →
      PointerStep m e m' → ∃ s', BumpStep s e.claim s' ∧ m'.Bumps s' := by
    intro m s e m' h hstep
    obtain ⟨s', hclaim, hbumps, -⟩ := pointerStep_bumps h hstep
    exact ⟨s', hclaim, hbumps⟩
  obtain ⟨s, hclaims, hbumps⟩ := hrun.simulation hsim hstart
  obtain ⟨s', hclaim, -, hholds⟩ := pointerStep_bumps hbumps hstep
  refine ⟨hholds r hblock, ?_⟩
  intro e he q hq
  rw [claim_of_block hblock] at hclaim
  have hrange := Alloc.disjoint_of_run hclaims.mapLabels hclaim rfl
  rcases hq with hq | hq
  · exact hrange (claimOf true q) (List.mem_map.mpr ⟨e, he, claim_of_block hq⟩)
  · exact hrange (claimOf false q) (List.mem_map.mpr ⟨e, he, claim_of_segment hq⟩)

/-- A block behind a segment. -/
theorem loadedBlock_apart : ∃ mmu₀ mmu mmu' : Mmu,
    mmuInit generousHeap 0x10000 0x1000 = .ok (some mmu₀) ∧
    Run PointerStep mmu₀ [loadEvent 0x10000 0x100] mmu ∧
    PointerStep mmu (.allocateRaw 0x40 0x10100) mmu' ∧
    mmu'.Holds 0x10100 (0x40 : Size).toNat ∧
    Disjoint (addresses (0x10100, 0x40)) (addresses (0x10000, 0x100)) := by
  obtain ⟨mmu₀, mmu, mmu', hinit, hload, hblock⟩ : ∃ mmu₀ mmu mmu' : Mmu,
      mmuInit generousHeap 0x10000 0x1000 = .ok (some mmu₀) ∧
      PointerStep mmu₀ (loadEvent 0x10000 0x100) mmu ∧
      PointerStep mmu (.allocateRaw 0x40 0x10100) mmu' := by
    refine ⟨_, _, _, rfl, ⟨⟨rfl, ?_⟩, ?_⟩, ⟨⟨rfl, ?_⟩, ?_⟩⟩
    · show (0x100 : Size).toNat < 2 ^ 32
      decide
    · refine ⟨fun hextends => absurd hextends ?_, fun _ => ?_⟩
      · show ¬ wide 0x10000 + 0x100 > wide 0x10000 + 0x1000
        decide
      · show wide 0x10000 ≤ wide 0x10000 + 0x100
        decide
    · show (0x40 : Size).toNat < 2 ^ 31
      decide
    · show (wide 0x10000 + 0x100).toNat < 2 ^ 32
      decide
  have hrun := Run.single hload
  have haddr : (MmuEvent.allocateRaw 0x40 0x10100).block = some (0x10100, 0x40) := rfl
  obtain ⟨hholds, hdisjoint⟩ := allocation_apart hinit hrun hblock haddr
  exact ⟨mmu₀, mmu, mmu', hinit, hrun, hblock, hholds,
    hdisjoint _ (List.mem_singleton_self _) (0x10000, 0x100) (Or.inr rfl)⟩

/-- Two segments in descending order, and a block that is put over the first. -/
theorem descendingSegments_overlap : ∃ mmu₀ mmu₁ mmu₂ mmu₃ : Mmu,
    mmuInit generousHeap 0x10000 0x1000 = .ok (some mmu₀) ∧
    SizedStep mmu₀ (loadEvent 0x10800 0x400) mmu₁ ∧
    SizedStep mmu₁ (loadEvent 0x10000 0x100) mmu₂ ∧
    SizedStep mmu₂ (.allocateRaw 0x800 0x10100) mmu₃ ∧
    ¬ Disjoint (addresses (0x10100, 0x800)) (addresses (0x10800, 0x400)) := by
  refine ⟨_, _, _, _, rfl, ⟨rfl, ?_⟩, ⟨rfl, ?_⟩, ⟨rfl, ?_⟩, ?_⟩
  · show (0x400 : Size).toNat < 2 ^ 32
    decide
  · show (0x100 : Size).toNat < 2 ^ 32
    decide
  · show (0x800 : Size).toNat < 2 ^ 31
    decide
  · unfold addresses
    rw [Set.Ico_disjoint_Ico]
    decide

end CRiscV
