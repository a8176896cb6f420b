/-
The program break: what `sys_brk` reports against what the allocator has reserved.

The call asks the allocator for 256 bytes whatever it is given, and reports the
address that it was given whether these bytes reach it or not.
-/
import Mathlib.Order.CompletePartialOrder
import Mathlib.Order.Interval.Set.Disjoint
import CRiscV.Emulator.Syscall
import CRiscV.Refinement.Allocator
import CRiscV.Refinement.Blocks

namespace CRiscV

open Transition (Run Meeting)

/-- The current break. -/
def Machine.brk (m : Machine) : Nat := m.bus.mmu.currVaddr.toNat

def Machine.limit (m : Machine) : Nat := m.bus.mmu.limit

/-- The saved a0. -/
def Machine.a0 (m : Machine) : Word := m.core.trapRegs 10

/-- A query reports the break and changes nothing.  A request for a range that fits, if
it is reported as granted, has the break behind the range and inside the memory; one
for a range that does not fit reports the old break and does nothing. -/
structure Machine.BrkContract (m : Machine) (arg0 : Word) : Prop where
  query : arg0 = 0 → ∃ v : Word, sysBrk m arg0 = .ok (true, m.setA0 v) ∧ v.toNat = m.brk
  reserve : m.brk < arg0.toNat → arg0.toNat ≤ m.limit →
    ∃ m', sysBrk m arg0 = .ok (true, m') ∧
      (m'.a0 = arg0 → arg0.toNat ≤ m'.brk ∧ m'.brk ≤ m'.limit)
  refuse : m.brk < arg0.toNat → m.limit < arg0.toNat →
    ∃ m', sysBrk m arg0 = .ok (true, m') ∧ m'.a0.toNat = m.brk ∧ m'.bus.mmu = m.bus.mmu

/-- A query finds a break of 32 bits.  A request above the break is for at most 256
bytes from there, of which one is left over, and the break is in the memory and not 0. -/
structure Machine.BrkMet (m : Machine) (arg0 : Word) : Prop where
  query : arg0 = 0 → m.brk < 2 ^ 32
  request : m.brk < arg0.toNat → 0 < m.brk ∧ m.bus.mmu.base.toNat ≤ m.brk ∧
    arg0.toNat ≤ m.brk + 0x100 ∧ m.brk + 0x100 < m.limit

/-! ## One call -/

section Call

variable {m m' : Machine} {arg0 : Word}

theorem sysBrk_zero (m : Machine) :
    sysBrk m 0 = .ok (true, m.setA0 (m.bus.mmu.currVaddr.setWidth 32)) := rfl

/-- The distance of an address to itself is 0, so the request is always the same. -/
theorem sysBrk_request (h : arg0 ≠ 0) :
    sysBrk m arg0 = mmuAllocate m.bus.mmu (wide 0x100) (mpermRaw ||| mpermWrite) >>= fun x =>
      .ok (true, (m.withBus { m.bus with mmu := x.2 }).setA0 arg0) := by
  have hincrease : (arg0 - arg0 + 0x100) &&& 0xffffff00 = (0x100 : Word) := by
    rw [BitVec.sub_self]
    rfl
  unfold sysBrk
  simp only
  rw [if_neg h, hincrease]
  rfl

theorem roundUp_request : roundUp 0x100 = 0x100 := rfl

theorem ne_zero_of_lt {n : Nat} (h : n < arg0.toNat) : arg0 ≠ 0 := by
  intro hzero
  rw [hzero] at h
  exact absurd h (Nat.not_lt_zero n)

/-- A request that is granted. -/
theorem sysBrk_granted (hsized : m.bus.mmu.size.toNat < 2 ^ 63) (habove : m.brk < arg0.toNat)
    (hpos : 0 < m.brk) (hbase : m.bus.mmu.base.toNat ≤ m.brk) (hroom : m.brk + 0x100 < m.limit) :
    ∃ m', sysBrk m arg0 = .ok (true, m') ∧ m'.brk = m.brk + 0x100 ∧ m'.limit = m.limit := by
  have harg := arg0.isLt
  have hlt : m.bus.mmu.currVaddr.toNat < 2 ^ 32 := Nat.lt_trans habove harg
  have hround := roundUp_request
  have hfree : ¬ m.bus.mmu.Full 0x100 := by
    unfold Mmu.Full
    unfold Machine.brk Machine.limit at hroom
    omega
  have hcall := Mmu.allocate_placed (mpermRaw ||| mpermWrite) ⟨hsized, hbase⟩ hfree hpos hlt
    (show roundUp 0x100 < 2 ^ 32 by omega)
  have hnext := Mmu.placed_currVaddr (mpermRaw ||| mpermWrite) hlt
    (show roundUp 0x100 < 2 ^ 32 by omega)
  rw [hround] at hnext
  rw [sysBrk_request (ne_zero_of_lt habove), hcall]
  exact ⟨_, rfl, hnext, rfl⟩

/-- What a request that returns has done: the address is reported, and 256 bytes are
taken behind 32 bits of the break, or none. -/
theorem sysBrk_cases (hsized : m.bus.mmu.size.toNat < 2 ^ 63) (hne : arg0 ≠ 0)
    (h : sysBrk m arg0 = .ok (true, m')) :
    m'.a0 = arg0 ∧ (m'.bus.mmu = m.bus.mmu ∨
      0 < m.brk % 2 ^ 32 ∧ m.bus.mmu.base.toNat ≤ m.brk % 2 ^ 32 ∧
      m'.brk = m.brk % 2 ^ 32 + 0x100 ∧ m'.brk < m.limit) := by
  rw [sysBrk_request hne] at h
  obtain ⟨⟨r, mmu'⟩, hcall, h⟩ := Transition.exists_of_bind_ok h
  cases h
  refine ⟨rfl, ?_⟩
  by_cases hfull : m.bus.mmu.Full 0x100
  · rw [Mmu.allocate_full hsized hfull] at hcall
    cases hcall
    exact Or.inl rfl
  · right
    have hround := roundUp_request
    obtain ⟨hr, hpos, hnext⟩ := Mmu.allocate_room hsized hfull hcall
    have hrpos : r.toNat ≠ 0 := fun hzero => hpos (BitVec.eq_of_toNat_eq hzero)
    unfold Mmu.Full at hfull
    rcases mmuAllocate_cases hcall with ⟨rfl, -⟩ | ⟨-, -, -, hinside, -⟩
    · exact absurd rfl hpos
    · have hn : (wide 0x100).toNat < 2 ^ 63 := by decide
      have hbase := ((Mmu.outside_eq_false_iff hsized hn).mp hinside).1
      unfold Machine.brk Machine.limit
      show _ ∧ _ ∧ mmu'.currVaddr.toNat = _ ∧ mmu'.currVaddr.toNat < _
      omega

/-- Which calls meet the contract. -/
theorem brkContract_iff (hsized : m.bus.mmu.size.toNat < 2 ^ 63) (arg0 : Word) :
    m.BrkContract arg0 ↔ m.BrkMet arg0 := by
  have harg := arg0.isLt
  constructor
  · rintro ⟨hquery, hreserve, hrefuse⟩
    constructor
    · intro hzero
      obtain ⟨v, -, hv⟩ := hquery hzero
      have hlt := v.isLt
      omega
    · intro habove
      have hne := ne_zero_of_lt habove
      by_cases hfits : arg0.toNat ≤ m.limit
      · obtain ⟨m', hcall, hgranted⟩ := hreserve habove hfits
        obtain ⟨ha0, hbrk⟩ := sysBrk_cases hsized hne hcall
        obtain ⟨hreached, -⟩ := hgranted ha0
        rcases hbrk with hsame | ⟨hpos, hbase, hnext, hroom⟩
        · unfold Machine.brk at hreached habove
          rw [hsame] at hreached
          omega
        · omega
      · obtain ⟨m', hcall, ha0, -⟩ := hrefuse habove (by omega)
        obtain ⟨hreported, -⟩ := sysBrk_cases hsized hne hcall
        rw [hreported] at ha0
        omega
  · rintro ⟨hquery, hrequest⟩
    refine ⟨?_, ?_, ?_⟩
    · rintro rfl
      refine ⟨_, sysBrk_zero m, ?_⟩
      rw [BitVec.toNat_setWidth]
      exact Nat.mod_eq_of_lt (hquery rfl)
    · intro habove _
      obtain ⟨hpos, hbase, hreach, hroom⟩ := hrequest habove
      obtain ⟨m', hcall, hbrk, hlimit⟩ := sysBrk_granted hsized habove hpos hbase hroom
      exact ⟨m', hcall, fun _ => by omega⟩
    · intro habove hbeyond
      obtain ⟨-, -, hreach, hroom⟩ := hrequest habove
      omega

end Call

/-! ## Runs -/

/-- A call of one of the two functions, with the break before it and what it reports. -/
inductive BreakEvent where
  | brk (old : Nat) (arg0 a0 : Word)
  | allocate (size : Size) (perm : Perm) (addr : Vaddr)

def BreakStep (m : Machine) (event : BreakEvent) (m' : Machine) : Prop :=
  match event with
  | .brk old arg0 a0 => old = m.brk ∧ sysBrk m arg0 = .ok (true, m') ∧ m'.a0 = a0
  | .allocate size perm addr =>
      ∃ mmu', mmuAllocate m.bus.mmu size perm = .ok (addr, mmu') ∧
        m' = m.withBus { m.bus with mmu := mmu' }

/-- The range that a call of `sys_brk` reports as reserved. -/
def BreakEvent.reserved : BreakEvent → Set Nat
  | .brk old arg0 a0 => if a0 = arg0 then Set.Ico old arg0.toNat else ∅
  | .allocate .. => ∅

/-- The block that the allocator returns in a call. -/
def BreakEvent.block : BreakEvent → Set Nat
  | .brk old arg0 _ => if arg0 = 0 then ∅ else Set.Ico old (old + 0x100)
  | .allocate size _ addr =>
      if addr = 0 then ∅ else Set.Ico addr.toNat (addr.toNat + size.toNat)

/-- The break has 32 bits, and a request is one that the contract is met for. -/
def BreakEvent.Met (m : Machine) : BreakEvent → Prop
  | .brk _ arg0 _ => m.brk < 2 ^ 32 ∧ m.BrkMet arg0
  | .allocate .. => m.brk < 2 ^ 32

theorem allocate_moves {mmu mmu' : Mmu} {size : Size} {perm : Perm} {addr : Vaddr}
    (hlt : mmu.currVaddr.toNat < 2 ^ 32) (h : mmuAllocate mmu size perm = .ok (addr, mmu')) :
    mmu.currVaddr.toNat ≤ mmu'.currVaddr.toNat ∧
      (addr ≠ 0 → addr.toNat = mmu.currVaddr.toNat) := by
  rcases mmuAllocate_cases h with ⟨rfl, rfl⟩ | ⟨rfl, -, -, -, rfl⟩
  · exact ⟨Nat.le_refl _, fun hne => absurd rfl hne⟩
  · have hr := Mmu.start_toNat hlt
    have hend := Mmu.start_end hlt size
    refine ⟨?_, fun _ => hr⟩
    show mmu.currVaddr.toNat ≤ (wide (mmu.currVaddr.setWidth 32) + alignedSize size).toNat
    omega

/-- A call moves the break up only.  Its block starts at the break or above it, and what
it reports as reserved lies below the break that it leaves. -/
structure BreakEvent.Moves (m : Machine) (event : BreakEvent) (m' : Machine) : Prop where
  covers : m'.bus.mmu.Covers
  up : m.brk ≤ m'.brk
  block : ∀ x ∈ event.block, m.brk ≤ x
  reserved : ∀ x ∈ event.reserved, x < m'.brk

theorem brk_moves {m m' : Machine} {arg0 : Word} (hcovers : m.bus.mmu.Covers)
    (hlt : m.brk < 2 ^ 32) (hmet : m.BrkMet arg0) (hcall : sysBrk m arg0 = .ok (true, m')) :
    (BreakEvent.brk m.brk arg0 m'.a0).Moves m m' := by
  by_cases hzero : arg0 = 0
  · rw [hzero, sysBrk_zero] at hcall
    cases hcall
    refine ⟨hcovers, Nat.le_refl _, ?_, ?_⟩
    · intro x hx
      rw [BreakEvent.block, if_pos hzero] at hx
      exact absurd hx (Set.notMem_empty x)
    · intro x hx
      rw [BreakEvent.reserved, hzero] at hx
      split_ifs at hx
      · exact absurd hx.2 (Nat.not_lt_zero x)
      · exact absurd hx (Set.notMem_empty x)
  · have hrequest := hcall
    rw [sysBrk_request hzero] at hrequest
    obtain ⟨⟨r, mmu'⟩, hallocate, hrequest⟩ := Transition.exists_of_bind_ok hrequest
    cases hrequest
    refine ⟨(hcovers.allocate hallocate).1, (allocate_moves hlt hallocate).1, ?_, ?_⟩
    · intro x hx
      rw [BreakEvent.block, if_neg hzero] at hx
      exact hx.1
    · intro x hx
      rw [BreakEvent.reserved] at hx
      split_ifs at hx
      · obtain ⟨hlo, hhi⟩ := hx
        obtain ⟨hpos, hbase, hreach, hroom⟩ := hmet.request (Nat.lt_of_le_of_lt hlo hhi)
        obtain ⟨m'', hcall', hbrk, -⟩ := sysBrk_granted hcovers.sized (Nat.lt_of_le_of_lt hlo hhi) hpos
          hbase hroom
        rw [hcall] at hcall'
        cases hcall'
        omega
      · exact absurd hx (Set.notMem_empty x)

theorem breakStep_moves {m m' : Machine} {event : BreakEvent}
    (hcovers : m.bus.mmu.Covers)
    (hstep : Meeting BreakStep BreakEvent.Met m event m') : event.Moves m m' := by
  obtain ⟨hstep, hmet⟩ := hstep
  cases event with
  | brk old arg0 a0 =>
      obtain ⟨rfl, hcall, rfl⟩ := hstep
      exact brk_moves hcovers hmet.1 hmet.2 hcall
  | allocate size perm addr =>
      obtain ⟨mmu', hcall, rfl⟩ := hstep
      have hlt : m.bus.mmu.currVaddr.toNat < 2 ^ 32 := hmet
      obtain ⟨hup, haddr⟩ := allocate_moves hlt hcall
      refine ⟨(hcovers.allocate hcall).1, hup, ?_, fun x hx => absurd hx (Set.notMem_empty x)⟩
      intro x hx
      rw [BreakEvent.block] at hx
      split_ifs at hx with hzero
      · exact absurd hx (Set.notMem_empty x)
      · rw [Machine.brk, ← haddr hzero]
        exact hx.1

/-- In every state that is reached by calls that meet the condition, from memory that its
blocks cover, the contract of the next call is met exactly under it, and no block of a call
overlaps what an earlier one has reported as reserved. -/
theorem break_reserved {m₀ m : Machine} {events : List BreakEvent}
    (hcovers : m₀.bus.mmu.Covers)
    (hrun : Run (Meeting BreakStep BreakEvent.Met) m₀ events m) :
    (∀ arg0, m.BrkContract arg0 ↔ m.BrkMet arg0) ∧
      events.Pairwise fun earlier later => Disjoint earlier.reserved later.block := by
  have hbelow : m.bus.mmu.Covers ∧ (∀ e ∈ events, ∀ x ∈ e.reserved, x < m.brk) ∧
      events.Pairwise fun earlier later => Disjoint earlier.reserved later.block := by
    induction hrun with
    | nil => exact ⟨hcovers, List.forall_mem_nil _, List.Pairwise.nil⟩
    | snoc hrun hstep ih =>
        obtain ⟨hcovered, hbefore, hapart⟩ := ih
        obtain ⟨hkept, hup, hblock, hreserved⟩ := breakStep_moves hcovered hstep
        refine ⟨hkept, ?_, ?_⟩
        · intro e he x hx
          rw [List.mem_append, List.mem_singleton] at he
          rcases he with he | rfl
          · exact Nat.lt_of_lt_of_le (hbefore e he x hx) hup
          · exact hreserved x hx
        · refine List.pairwise_append.mpr ⟨hapart, List.pairwise_singleton _ _, ?_⟩
          intro e he later hlater
          rw [List.mem_singleton.mp hlater, Set.disjoint_left]
          intro x hx hx'
          have hold := hbefore e he x hx
          have hnew := hblock x hx'
          omega
  exact ⟨brkContract_iff hbelow.1.sized, hbelow.2.2⟩

/-- A machine in front of its first system call. -/
def callingMachine (mmu : Mmu) : Machine :=
  { core := coreInit cpuInitCore 0 ramStart, bus := mainBus mmu, calls := [] }

/-- A request for 128 bytes, and a block behind them. -/
theorem smallRequest_reserved : ∃ m : Machine,
    Run (Meeting BreakStep BreakEvent.Met) (callingMachine rawMmu)
      [.brk 0x10000 0x10080 0x10080, .allocate 0x40 mpermRaw 0x10100] m ∧
    (∀ arg0, m.BrkContract arg0 ↔ m.BrkMet arg0) ∧
    [BreakEvent.brk 0x10000 0x10080 0x10080, .allocate 0x40 mpermRaw 0x10100].Pairwise
      fun earlier later => Disjoint earlier.reserved later.block := by
  obtain ⟨m₁, m, hcall, hallocate, hbrk⟩ : ∃ m₁ m : Machine,
      BreakStep (callingMachine rawMmu) (.brk 0x10000 0x10080 0x10080) m₁ ∧
      BreakStep m₁ (.allocate 0x40 mpermRaw 0x10100) m ∧ m₁.brk = 0x10100 :=
    ⟨_, _, ⟨rfl, rfl, rfl⟩, ⟨_, rfl, rfl⟩, rfl⟩
  have hfirst : (callingMachine rawMmu).BrkMet 0x10080 := by
    constructor
    · intro hzero
      exact absurd hzero (by decide)
    · intro _
      refine ⟨?_, ?_, ?_, ?_⟩ <;> decide
  have hsecond : m₁.brk < 2 ^ 32 := by omega
  have hrun : Run (Meeting BreakStep BreakEvent.Met) (callingMachine rawMmu)
      [.brk 0x10000 0x10080 0x10080, .allocate 0x40 mpermRaw 0x10100] m :=
    (Run.single ⟨hcall, by decide, hfirst⟩).snoc ⟨hallocate, hsecond⟩
  exact ⟨m, hrun, break_reserved ⟨by decide, by decide, by decide⟩ hrun⟩

/-- A request for half a page, which the memory has: all of it is reported, and 256
bytes are taken. -/
theorem halfPage_unreserved : ∃ m' : Machine,
    sysBrk (callingMachine rawMmu) 0x10800 = .ok (true, m') ∧ m'.a0 = 0x10800 ∧
    m'.brk = 0x10100 ∧ (callingMachine rawMmu).limit = 0x11000 ∧
    ¬ (callingMachine rawMmu).BrkContract 0x10800 := by
  obtain ⟨m', hcall, ha0, hbrk, hlimit, hold⟩ : ∃ m' : Machine,
      sysBrk (callingMachine rawMmu) 0x10800 = .ok (true, m') ∧ m'.a0 = 0x10800 ∧
      m'.brk = 0x10100 ∧ (callingMachine rawMmu).limit = 0x11000 ∧
      (callingMachine rawMmu).brk = 0x10000 :=
    ⟨_, rfl, rfl, rfl, rfl, rfl⟩
  have harg : (0x10800 : Word).toNat = 0x10800 := rfl
  refine ⟨m', hcall, ha0, hbrk, hlimit, ?_⟩
  intro hcontract
  obtain ⟨m'', hcall', hgranted⟩ := hcontract.reserve (by omega) (by omega)
  rw [hcall] at hcall'
  cases hcall'
  have hreached := (hgranted ha0).1
  omega

end CRiscV
