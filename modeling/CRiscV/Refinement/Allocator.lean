/-
The contract of `mmu_allocate` for every 32-bit size, and the exact condition under
which a call meets it.

The call keeps 32 bits of the bump pointer and of the rounded size, and it asks for
one byte more than it uses.
-/
import CRiscV.Mmu.Segment
import CRiscV.Refinement.Transfer

namespace CRiscV

open Transition (Run)

/-- The end of the memory. -/
def Mmu.limit (mmu : Mmu) : Nat := mmu.base.toNat + mmu.size.toNat

/-- The size rounded up to a multiple of 16. -/
def roundUp (n : Word) : Nat := 16 * ((n.toNat + 15) / 16)

/-- The rounded block has room between the bump pointer and the end of the memory. -/
def Mmu.Fits (mmu : Mmu) (n : Word) : Prop := mmu.currVaddr.toNat + roundUp n ≤ mmu.limit

/-- `mmu'` is `mmu` with the block of `n` bytes at `r` taken. -/
structure Mmu.Granted (mmu : Mmu) (n : Word) (perm : Perm) (r : Vaddr) (mmu' : Mmu) : Prop where
  aligned : r.toNat % 16 = 0
  above : mmu.currVaddr.toNat ≤ r.toNat
  base : mmu'.base = mmu.base
  block : ∀ i < n.toNat, mmu'.permAt (r.toNat + i) = perm
  others : ∀ a, mmu.base.toNat ≤ a → a < r.toNat ∨ r.toNat + n.toNat ≤ a →
    mmu'.permAt a = mmu.permAt a
  data : mmu'.data = mmu.data
  currVaddr : mmu'.currVaddr.toNat = r.toNat + roundUp n

/-- The call returns, with 0 and nothing done if the block does not fit, and with the
block if it does. -/
def Mmu.AllocateContract (mmu : Mmu) (n : Word) (perm : Perm) : Prop :=
  ∃ r mmu', mmuAllocate mmu (wide n) perm = .ok (r, mmu') ∧
    (r = 0 ∧ mmu' = mmu ↔ ¬ mmu.Fits n) ∧ (mmu.Fits n → mmu.Granted n perm r mmu')

/-- A block that fits ends before the end of the memory and starts at a pointer that is
a multiple of 16, not 0 and below `2 ^ 32`; one that does not fit does not do so either
when the pointer and the rounded size are cut to 32 bits. -/
structure Mmu.Allots (mmu : Mmu) (n : Word) : Prop where
  fitting : mmu.Fits n → mmu.currVaddr.toNat + roundUp n < mmu.limit ∧
    0 < mmu.currVaddr.toNat ∧ mmu.currVaddr.toNat < 2 ^ 32 ∧ mmu.currVaddr.toNat % 16 = 0 ∧
    roundUp n < 2 ^ 32
  full : ¬ mmu.Fits n → mmu.limit ≤ mmu.currVaddr.toNat % 2 ^ 32 + roundUp n % 2 ^ 32

/-- The bump pointer is not below the memory. -/
structure Mmu.Pointed (mmu : Mmu) : Prop where
  sized : mmu.size.toNat < 2 ^ 63
  base_le : mmu.base.toNat ≤ mmu.currVaddr.toNat

/-- A segment inside the memory, or an allocation. -/
def MmuEvent.Reserves (mmu : Mmu) : MmuEvent → Prop
  | .addMemory _ addr size _ _ => addr.toNat + size.toNat ≤ mmu.limit
  | .allocate .. => True
  | .setperm .. | .allocateRaw .. | .writeFrom .. | .readInto .. => False

def ReserveStep (mmu : Mmu) (event : MmuEvent) (mmu' : Mmu) : Prop :=
  MmuStep mmu event mmu' ∧ event.Reserves mmu

/-! ## The arithmetic of one call -/

theorem roundUp_lt (n : Word) : n.toNat ≤ roundUp n ∧ roundUp n < n.toNat + 16 := by
  unfold roundUp
  omega

/-- The mask keeps 32 bits of the rounded size. -/
theorem alignedSize_wide (n : Word) : (alignedSize (wide n)).toNat = roundUp n % 2 ^ 32 := by
  have hn := n.isLt
  have hfifteen : (0x0f : Size).toNat = 15 := rfl
  have hsum : (wide n + 0x0f).toNat = n.toNat + 15 := by
    rw [BitVec.toNat_add, wide_toNat, hfifteen]
    omega
  have hmask : (0xfffffff0 : Size).toNat = 2 ^ 4 * (2 ^ 28 - 1) := rfl
  have hlt : n.toNat + 15 &&& 2 ^ 4 * (2 ^ 28 - 1) < 2 ^ 32 :=
    Nat.and_lt_two_pow _ (by decide)
  have hround : (n.toNat + 15) % 2 ^ 32 &&& 2 ^ 4 * (2 ^ 28 - 1) =
      2 ^ 4 * ((n.toNat + 15) % 2 ^ 32 / 2 ^ 4) :=
    BitField.and_alignMask (Nat.mod_lt _ (by decide))
  have hcut : n.toNat + 15 &&& 2 ^ 4 * (2 ^ 28 - 1) =
      (n.toNat + 15) % 2 ^ 32 &&& 2 ^ 4 * (2 ^ 28 - 1) := by
    rw [← Nat.mod_eq_of_lt hlt, Nat.and_mod_two_pow]
    rfl
  rw [alignedSize, BitVec.toNat_and, hsum, hmask, hcut, hround, roundUp]
  omega

section Call

variable {mmu mmu' : Mmu} {n : Word} {perm : Perm} {r : Vaddr}

/-- The call finds no room. -/
def Mmu.Full (mmu : Mmu) (n : Word) : Prop :=
  mmu.limit ≤ mmu.currVaddr.toNat % 2 ^ 32 + roundUp n % 2 ^ 32

/-- The test of the call. -/
theorem Mmu.full_iff (hsized : mmu.size.toNat < 2 ^ 63) :
    wide (mmu.currVaddr.setWidth 32) + alignedSize (wide n) ≥ wide mmu.base + mmu.size ↔
      mmu.Full n := by
  have haligned := alignedSize_wide n
  have hend := segment_end (mmu.currVaddr.setWidth 32) (alignedSize_lt (wide n))
  rw [ge_iff_le, BitVec.le_def, hend, memory_end hsized, haligned, BitVec.toNat_setWidth]
  exact Iff.rfl

theorem Mmu.allocate_full (hsized : mmu.size.toNat < 2 ^ 63) (h : mmu.Full n) :
    mmuAllocate mmu (wide n) perm = .ok (0, mmu) := if_pos ((Mmu.full_iff hsized).mpr h)

/-- With room, the block is put at 32 bits of the pointer, and 0 is not returned. -/
theorem Mmu.allocate_room (hsized : mmu.size.toNat < 2 ^ 63) (h : ¬ mmu.Full n)
    (hcall : mmuAllocate mmu (wide n) perm = .ok (r, mmu')) :
    r.toNat = mmu.currVaddr.toNat % 2 ^ 32 ∧ r ≠ 0 ∧
      mmu'.currVaddr.toNat = r.toNat + roundUp n % 2 ^ 32 := by
  have haligned := alignedSize_wide n
  have hroom := mt (Mmu.full_iff hsized).mp h
  unfold mmuAllocate at hcall
  simp only at hcall
  rw [if_neg hroom] at hcall
  obtain ⟨hover, hcall⟩ := Transition.of_ite_error hcall
  obtain ⟨placed, hperm, hcall⟩ := Transition.exists_of_bind_ok hcall
  have hplaced := (mmuSetperm_ok hperm).2
  cases hcall
  have hend := segment_end (mmu.currVaddr.setWidth 32) (alignedSize_lt (wide n))
  rw [BitVec.le_def, hend] at hover
  refine ⟨BitVec.toNat_setWidth .., ?_, ?_⟩
  · intro hzero
    rw [hzero] at hover
    have hnat : (0 : Vaddr).toNat = 0 := rfl
    omega
  · rw [hplaced, ← haligned]
    exact hend

/-- The MMU with a block put at 32 bits of the pointer. -/
def Mmu.placed (mmu : Mmu) (n : Word) (perm : Perm) : Mmu :=
  let start : Vaddr := mmu.currVaddr.setWidth 32
  { mmu with
    currVaddr := wide start + alignedSize (wide n)
    perm := Span.fill (start.toNat - mmu.base.toNat) (start.toNat - mmu.base.toNat + n.toNat) perm
      mmu.perm }

theorem Mmu.placed_currVaddr (perm : Perm) (hlt : mmu.currVaddr.toNat < 2 ^ 32)
    (hn : roundUp n < 2 ^ 32) :
    (mmu.placed n perm).currVaddr.toNat = mmu.currVaddr.toNat + roundUp n := by
  have hend := Mmu.start_end hlt (wide n)
  rw [alignedSize_wide, Nat.mod_eq_of_lt hn] at hend
  exact hend

/-- With room, at a pointer that is not 0 and has 32 bits, the block is placed. -/
theorem Mmu.allocate_placed (perm : Perm) (hpointed : mmu.Pointed) (hroom : ¬ mmu.Full n)
    (hpos : 0 < mmu.currVaddr.toNat) (hlt : mmu.currVaddr.toNat < 2 ^ 32)
    (hn : roundUp n < 2 ^ 32) :
    mmuAllocate mmu (wide n) perm = .ok (mmu.currVaddr.setWidth 32, mmu.placed n perm) := by
  have hround := roundUp_lt n
  obtain ⟨hsized, hbase⟩ := hpointed
  have hr := Mmu.start_toNat hlt
  have hend := Mmu.start_end hlt (wide n)
  have hover : ¬ wide (mmu.currVaddr.setWidth 32) + alignedSize (wide n) ≤
      alignedSize (wide n) := by
    rw [BitVec.le_def, hend]
    omega
  have hholds : mmu.Holds (mmu.currVaddr.setWidth 32) n.toNat := by
    unfold Mmu.Full Mmu.limit at hroom
    constructor
    · omega
    · omega
  have hset := @mmuSetperm_word
    { mmu with currVaddr := wide (mmu.currVaddr.setWidth 32) + alignedSize (wide n) }
    (mmu.currVaddr.setWidth 32) n hsized hholds perm
  unfold mmuAllocate
  simp only
  rw [if_neg (mt (Mmu.full_iff hsized).mp hroom), if_neg hover, hset]
  rfl

theorem Mmu.placed_granted (perm : Perm) (hbase : mmu.base.toNat ≤ mmu.currVaddr.toNat)
    (hlt : mmu.currVaddr.toNat < 2 ^ 32) (halign : mmu.currVaddr.toNat % 16 = 0)
    (hn : roundUp n < 2 ^ 32) :
    mmu.Granted n perm (mmu.currVaddr.setWidth 32) (mmu.placed n perm) := by
  have hr := Mmu.start_toNat hlt
  have hnext := Mmu.placed_currVaddr perm hlt hn
  have hindex : ∀ a, (mmu.placed n perm).permAt a =
      Span.fill (mmu.currVaddr.toNat - mmu.base.toNat)
        (mmu.currVaddr.toNat - mmu.base.toNat + n.toNat) perm mmu.perm (a - mmu.base.toNat) := by
    intro a
    rw [← hr]
    rfl
  refine ⟨by omega, by omega, rfl, ?_, ?_, rfl, by omega⟩
  · intro i hi
    rw [hindex]
    exact Span.fill_of_mem (by omega) (by omega)
  · intro a ha hout
    rw [hindex]
    exact Span.fill_of_not_mem (by omega)

/-- The contract of one call. -/
theorem Mmu.allocateContract_iff (hpointed : mmu.Pointed) :
    mmu.AllocateContract n perm ↔ mmu.Allots n := by
  have hsized := hpointed.sized
  have hround := roundUp_lt n
  constructor
  · rintro ⟨r, mmu', hcall, hzero, hgranted⟩
    constructor
    · intro hfits
      have hblock := hgranted hfits
      have haligned := hblock.aligned
      have habove := hblock.above
      have hcurr := hblock.currVaddr
      by_cases hfull : mmu.Full n
      · rw [Mmu.allocate_full hsized hfull] at hcall
        cases hcall
        exact absurd hfits (hzero.mp ⟨rfl, rfl⟩)
      · obtain ⟨hr, hne, hnext⟩ := Mmu.allocate_room hsized hfull hcall
        have hpos : r.toNat ≠ 0 := fun h => hne (BitVec.eq_of_toNat_eq h)
        unfold Mmu.Full at hfull
        omega
    · intro hfits
      obtain ⟨rfl, -⟩ := hzero.mpr hfits
      by_contra hfull
      exact (Mmu.allocate_room hsized hfull hcall).2.1 rfl
  · rintro ⟨hfitting, hfull⟩
    by_cases hfits : mmu.Fits n
    · obtain ⟨hroom, hpos, hlt, halign, hn⟩ := hfitting hfits
      have hnotFull : ¬ mmu.Full n := by
        unfold Mmu.Full
        omega
      have hne := Mmu.start_ne_zero hpos hlt
      exact ⟨_, _, Mmu.allocate_placed perm hpointed hnotFull hpos hlt hn,
        ⟨fun h => absurd h.1 hne, fun h => absurd hfits h⟩,
        fun _ => Mmu.placed_granted perm hpointed.base_le hlt halign hn⟩
    · exact ⟨0, mmu, Mmu.allocate_full hsized (hfull hfits), ⟨fun _ => hfits, fun _ => ⟨rfl, rfl⟩⟩,
        fun h => absurd h hfits⟩

end Call

/-! ## Runs -/

theorem reserveStep_pointed {mmu mmu' : Mmu} {event : MmuEvent} (h : mmu.Pointed)
    (hstep : ReserveStep mmu event mmu') : mmu'.Pointed := by
  obtain ⟨hsized, hbase⟩ := h
  obtain ⟨hstep, hreserves⟩ := hstep
  cases event with
  | addMemory heap addr size perm added =>
      have hinside : addr.toNat + size.toNat ≤ mmu.limit := hreserves
      have hstart : ¬ addr < mmu.base := (Transition.of_ite_error hstep).1
      have hlimit := memory_end hsized
      have hend : (wide addr + size).toNat = addr.toNat + size.toNat := by
        unfold Mmu.limit at hinside
        have hlow := mmu.base.isLt
        rw [BitVec.toNat_add, wide_toNat, Nat.mod_eq_of_lt (by omega)]
      cases mmuAddMemory_cases hstep with
      | inside _ hlayout =>
          obtain ⟨data, perm, dirty, state, rfl⟩ := hlayout
          refine ⟨hsized, ?_⟩
          rw [BitVec.lt_def] at hstart
          show mmu.base.toNat ≤ (wide addr + size).toNat
          omega
      | extended hextends | refused hextends =>
          unfold Mmu.Extends at hextends
          unfold Mmu.limit at hinside
          rw [gt_iff_lt, BitVec.lt_def, hend, hlimit] at hextends
          omega
  | allocate size perm addr =>
      rcases mmuAllocate_cases hstep with ⟨-, rfl⟩ | ⟨-, hover, -, hinside, rfl⟩
      · exact ⟨hsized, hbase⟩
      · refine ⟨hsized, ?_⟩
        have hstart : ¬ addr < mmu.base := by
          unfold Mmu.outside at hinside
          simp only [Bool.or_eq_false_iff, decide_eq_false_iff_not] at hinside
          exact hinside.1
        rw [BitVec.lt_def] at hstart
        show mmu.base.toNat ≤ (wide addr + alignedSize size).toNat
        rw [segment_end addr (alignedSize_lt size)]
        omega
  | setperm | allocateRaw | writeFrom | readInto => exact absurd hreserves id

/-- In every reachable state, and for every size and permission, the next call meets
the contract if and only if it meets the condition. -/
theorem allocate_contract_iff {heap : Heap} {base : Vaddr} {size : Size} {mmu₀ mmu : Mmu}
    {events : List MmuEvent} (hinit : mmuInit heap base size = .ok (some mmu₀))
    (hrun : Run ReserveStep mmu₀ events mmu) (n : Word) (perm : Perm) :
    mmu.AllocateContract n perm ↔ mmu.Allots n := by
  have hfresh := mmuInit_fresh hinit
  have hstart : mmu₀.Pointed := by
    refine ⟨hfresh.size ▸ hfresh.sized, ?_⟩
    rw [hfresh.base, hfresh.currVaddr, wide_toNat]
  exact Mmu.allocateContract_iff (hrun.invariant hstart reserveStep_pointed)

/-- A block behind a segment. -/
theorem loadedMemory_allocates : ∃ mmu₀ mmu : Mmu,
    mmuInit generousHeap 0x10000 0x1000 = .ok (some mmu₀) ∧
    Run ReserveStep mmu₀ [loadEvent 0x10000 0x100] mmu ∧
    mmu.AllocateContract 0x40 (mpermWrite ||| mpermRaw) := by
  obtain ⟨mmu₀, mmu, hinit, hload, hcurr, hlimit⟩ : ∃ mmu₀ mmu : Mmu,
      mmuInit generousHeap 0x10000 0x1000 = .ok (some mmu₀) ∧
      ReserveStep mmu₀ (loadEvent 0x10000 0x100) mmu ∧
      mmu.currVaddr.toNat = 0x10100 ∧ mmu.limit = 0x11000 := by
    refine ⟨_, _, rfl, ⟨rfl, ?_⟩, rfl, rfl⟩
    show 0x10000 + 0x100 ≤ 0x10000 + 0x1000
    decide
  have hround : roundUp 0x40 = 0x40 := rfl
  have hallots : mmu.Allots 0x40 := by
    constructor
    · intro _
      omega
    · intro hfits
      unfold Mmu.Fits at hfits
      omega
  exact ⟨mmu₀, mmu, hinit, Run.single hload,
    (allocate_contract_iff hinit (Run.single hload) 0x40 _).mpr hallots⟩

/-- All of an empty memory is asked for at once, and not given. -/
theorem exactFit_refused : ∃ mmu₀ : Mmu,
    mmuInit generousHeap 0x10000 0x1000 = .ok (some mmu₀) ∧ mmu₀.Fits 0x1000 ∧
    mmuAllocate mmu₀ (wide 0x1000) (mpermWrite ||| mpermRaw) = .ok (0, mmu₀) ∧
    ¬ mmu₀.AllocateContract 0x1000 (mpermWrite ||| mpermRaw) := by
  obtain ⟨mmu₀, hinit, hcurr, hlimit, hcall⟩ : ∃ mmu₀ : Mmu,
      mmuInit generousHeap 0x10000 0x1000 = .ok (some mmu₀) ∧
      mmu₀.currVaddr.toNat = 0x10000 ∧ mmu₀.limit = 0x11000 ∧
      mmuAllocate mmu₀ (wide 0x1000) (mpermWrite ||| mpermRaw) = .ok (0, mmu₀) :=
    ⟨_, rfl, rfl, rfl, rfl⟩
  have hround : roundUp 0x1000 = 0x1000 := rfl
  have hfits : mmu₀.Fits 0x1000 := by
    unfold Mmu.Fits
    omega
  refine ⟨mmu₀, hinit, hfits, hcall, ?_⟩
  rintro ⟨r, mmu', hcontract, hzero, -⟩
  rw [hcall] at hcontract
  cases hcontract
  exact hzero.mp ⟨rfl, rfl⟩ hfits

end CRiscV
