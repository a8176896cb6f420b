/-
Which bytes of the memory can be read after a sequence of calls, and what they hold.

The permissions say of each byte whether it has been written since it was last handed
out; here that is read off the calls themselves.
-/
import CRiscV.Mmu.Segment
import CRiscV.Transition.Trace

namespace CRiscV

open Transition (Run Last)

/-! ## What the calls say of a byte -/

/-- The call writes `x` to the byte at `a`. -/
def MmuEvent.Writes (event : MmuEvent) (a : Nat) (x : BitVec 8) : Prop :=
  ∃ src vaddr size, event = .writeFrom src vaddr size size ∧
    vaddr.toNat ≤ a ∧ a < vaddr.toNat + size.toNat ∧ src (a - vaddr.toNat) = x

/-- The byte at `a` lies in what the call has written, or in the block it has returned. -/
def MmuEvent.Covers (event : MmuEvent) (a : Nat) : Prop :=
  match event with
  | .allocateRaw size addr => addr ≠ 0 ∧ addr.toNat ≤ a ∧ a < addr.toNat + size.toNat
  | .writeFrom _ vaddr size count =>
      count = size ∧ vaddr.toNat ≤ a ∧ a < vaddr.toNat + size.toNat
  | .setperm .. | .addMemory .. | .allocate .. | .readInto .. => False

/-- Of the calls, oldest first, the last one that covers the byte at `a` writes `x` to it. -/
def LastWrite (events : List MmuEvent) (a : Nat) (x : BitVec 8) : Prop :=
  Last (fun event => event.Covers a) (fun event => event.Writes a x) events

/-- The value written to each byte, as far as it is known. -/
abbrev Ledger := Nat → Option (BitVec 8)

/-- A block that was handed out is unknown, and bytes that were written are known. -/
def MmuEvent.record (ledger : Ledger) : MmuEvent → Ledger
  | .allocateRaw size addr =>
      if addr = 0 then ledger
      else Span.fill addr.toNat (addr.toNat + size.toNat) none ledger
  | .writeFrom src vaddr size count =>
      if count = size then
        Span.copy vaddr.toNat (vaddr.toNat + size.toNat) (fun i => some (src i)) ledger
      else ledger
  | .setperm .. | .addMemory .. | .allocate .. | .readInto .. => ledger

theorem record_block {ledger : Ledger} {size : Size} {addr : Vaddr} (h : addr ≠ 0) :
    MmuEvent.record ledger (.allocateRaw size addr) =
      Span.fill addr.toNat (addr.toNat + size.toNat) none ledger := if_neg h

theorem record_written (ledger : Ledger) (src : Nat → BitVec 8) (vaddr : Vaddr) (size : Size) :
    MmuEvent.record ledger (.writeFrom src vaddr size size) =
      Span.copy vaddr.toNat (vaddr.toNat + size.toNat) (fun i => some (src i)) ledger := if_pos rfl

/-- A write that moves nothing teaches nothing, also when there was nothing to move. -/
theorem record_refused (ledger : Ledger) (src : Nat → BitVec 8) (vaddr : Vaddr) (size : Size) :
    MmuEvent.record ledger (.writeFrom src vaddr size 0) = ledger := by
  by_cases hzero : 0 = size
  · rw [← hzero, record_written]
    funext a
    exact Span.copy_of_not_mem (Nat.lt_or_ge a vaddr.toNat)
  · exact if_neg hzero

/-- The value last written to each byte by the calls, oldest first, unless a block that
covers it was handed out after that. -/
def lastWritten (events : List MmuEvent) : Ledger :=
  events.foldl MmuEvent.record (fun _ => none)

theorem lastWritten_snoc (events : List MmuEvent) (event : MmuEvent) :
    lastWritten (events ++ [event]) = event.record (lastWritten events) := by
  unfold lastWritten
  rw [List.foldl_append]
  rfl

theorem record_of_covers {ledger : Ledger} {event : MmuEvent} {a : Nat} {x : BitVec 8}
    (h : event.Covers a) : event.record ledger a = some x ↔ event.Writes a x := by
  cases event with
  | allocateRaw size addr =>
      obtain ⟨hne, hlo, hhi⟩ := h
      rw [record_block hne, Span.fill_of_mem hlo hhi]
      constructor
      · intro hnone
        cases hnone
      · rintro ⟨src, vaddr, n, hevent, -⟩
        cases hevent
  | writeFrom src vaddr size count =>
      obtain ⟨rfl, hlo, hhi⟩ := h
      rw [record_written, Span.copy_of_mem hlo hhi]
      constructor
      · intro hx
        exact ⟨src, vaddr, count, rfl, hlo, hhi, Option.some.inj hx⟩
      · rintro ⟨src', vaddr', n, hevent, -, -, hx⟩
        cases hevent
        exact congrArg some hx
  | setperm | addMemory | allocate | readInto => cases h

theorem record_of_not_covers {ledger : Ledger} {event : MmuEvent} {a : Nat}
    (h : ¬ event.Covers a) : event.record ledger a = ledger a := by
  cases event with
  | allocateRaw size addr =>
      by_cases hzero : addr = 0
      · exact congrFun (if_pos hzero) a
      · rw [record_block hzero]
        apply Span.fill_of_not_mem
        by_contra hin
        exact h ⟨hzero, by omega, by omega⟩
  | writeFrom src vaddr size count =>
      by_cases hmoved : count = size
      · rw [hmoved, record_written]
        apply Span.copy_of_not_mem
        by_contra hin
        exact h ⟨hmoved, by omega, by omega⟩
      · exact congrFun (if_neg hmoved) a
  | setperm | addMemory | allocate | readInto => rfl

theorem MmuEvent.Writes.covers {event : MmuEvent} {a : Nat} {x : BitVec 8}
    (h : event.Writes a x) : event.Covers a := by
  obtain ⟨src, vaddr, size, rfl, hlo, hhi, -⟩ := h
  exact ⟨rfl, hlo, hhi⟩

theorem lastWrite_snoc {events : List MmuEvent} {event : MmuEvent} {a : Nat} {x : BitVec 8} :
    LastWrite (events ++ [event]) a x ↔
      event.Writes a x ∨ ¬ event.Covers a ∧ LastWrite events a x := Transition.last_snoc

/-- The ledger is a summary of the calls. -/
theorem lastWritten_eq_some_iff {events : List MmuEvent} {a : Nat} {x : BitVec 8} :
    lastWritten events a = some x ↔ LastWrite events a x := by
  induction events using List.reverseRecOn with
  | nil =>
      refine iff_of_false ?_ Transition.not_last_nil
      intro hnone
      cases hnone
  | append_singleton events event ih =>
      rw [lastWritten_snoc, lastWrite_snoc]
      by_cases hcovers : event.Covers a
      · rw [record_of_covers hcovers]
        exact ⟨Or.inl, fun h => h.resolve_right fun hold => hold.1 hcovers⟩
      · rw [record_of_not_covers hcovers, ih]
        exact ⟨fun hold => Or.inr ⟨hcovers, hold⟩,
          fun h => (h.resolve_left fun hwrites => hcovers hwrites.covers).2⟩

/-- An allocation of raw memory, or a transfer.  What a transfer moves is an object of the
host. -/
def MmuEvent.IsRaw : MmuEvent → Prop
  | .allocateRaw size _ => size.toNat < 2 ^ 31
  | .writeFrom _ _ size _ => size.toNat < 2 ^ 63
  | .readInto .. => True
  | .setperm .. | .addMemory .. | .allocate .. => False

def RawStep (mmu : Mmu) (event : MmuEvent) (mmu' : Mmu) : Prop :=
  MmuStep mmu event mmu' ∧ event.IsRaw

/-- The permission of a byte, by whether it is known. -/
def recordedPerm (known : Bool) : Perm :=
  if known then mpermRead ||| mpermWrite else mpermWrite ||| mpermRaw

/-- The memory of `n` bytes at `b` holds what the ledger says. -/
structure Mmu.Recorded (mmu : Mmu) (b : Vaddr) (n : Size) (ledger : Ledger) : Prop where
  base : mmu.base = b
  size : mmu.size = n
  pointer : b.toNat ≤ mmu.currVaddr.toNat ∧ mmu.currVaddr.toNat ≤ b.toNat + n.toNat
  perm : ∀ k < n.toNat, mmu.perm k = recordedPerm (ledger (b.toNat + k)).isSome
  data : ∀ k < n.toNat, ∀ x, ledger (b.toNat + k) = some x → mmu.data k = x

section Steps

variable {mmu mmu' : Mmu} {b : Vaddr} {n : Size} {ledger : Ledger}

theorem recordedPerm_readable (known : Bool) : (recordedPerm known).Readable ↔ known = true := by
  revert known
  decide

theorem permWritten_recorded (known : Bool) :
    permWritten (recordedPerm known) = recordedPerm true := by
  revert known
  decide

/-- `mmu_init` makes every byte writable and unknown. -/
theorem mmuInit_recorded {heap : Heap} (h : mmuInit heap b n = .ok (some mmu)) :
    mmu.Recorded b n fun _ => none := by
  have hfresh := mmuInit_fresh h
  have hsized := hfresh.sized
  refine ⟨hfresh.base, hfresh.size, ?_, ?_, nofun⟩
  · rw [hfresh.currVaddr, wide_toNat]
    omega
  · intro k hk
    unfold mmuInit at h
    simp only at h
    split_ifs at h
    · cases h
    · cases h
    · cases h
    · cases h
    · obtain ⟨placed, hperm, h⟩ := Transition.exists_of_bind_ok h
      cases h
      rw [(mmuSetperm_ok hperm).2]
      apply Span.fill_of_mem
      · rw [Mmu.offset_toNat (Nat.le_refl _), Nat.sub_self]
        exact Nat.zero_le k
      · rw [Mmu.offsetEnd_toNat _ _ hsized, Mmu.offset_toNat (Nat.le_refl _), Nat.sub_self,
          Nat.zero_add]
        exact hk

theorem Mmu.Recorded.flag (h : mmu.Recorded b n ledger) (state : MmuState) :
    Mmu.Recorded { mmu with state := state } b n ledger :=
  ⟨h.base, h.size, h.pointer, h.perm, h.data⟩

/-- A new block begins at the bump pointer and is unknown. -/
theorem Mmu.Recorded.allocate {size : Size} {addr : Vaddr} (h : mmu.Recorded b n ledger)
    (hlow : 0 < b.toNat) (hend : b.toNat + n.toNat < 2 ^ 32) (hsize : size.toNat < 2 ^ 31)
    (hstep : mmuAllocateRaw mmu size = .ok (addr, mmu')) :
    mmu'.Recorded b n (MmuEvent.record ledger (.allocateRaw size addr)) := by
  obtain ⟨hfrom, hto⟩ := h.pointer
  rcases mmuAllocate_cases hstep with ⟨rfl, rfl⟩ | ⟨haddr, -, hfull, hinside, rfl⟩
  · exact h
  · have hstart : addr.toNat = mmu.currVaddr.toNat := by
      rw [haddr, BitVec.toNat_setWidth]
      omega
    have hbase : mmu.base.toNat ≤ addr.toNat := by
      rw [h.base]
      omega
    have hne : addr ≠ 0 := by
      intro hzero
      have hnat : addr.toNat = 0 := congrArg BitVec.toNat hzero
      omega
    have haligned := alignedSize_toNat (show size.toNat + 15 < 2 ^ 32 by omega)
    have hpointer : (wide addr + alignedSize size).toNat =
        addr.toNat + (alignedSize size).toNat := by
      rw [BitVec.toNat_add, wide_toNat]
      omega
    have hmemory : (wide mmu.base + mmu.size).toNat = b.toNat + n.toNat := by
      rw [h.base, h.size, BitVec.toNat_add, wide_toNat]
      omega
    rw [BitVec.lt_def, hpointer, hmemory] at hfull
    have hfill : ∀ k, Span.fill (mmu.offset addr).toNat (mmu.offsetEnd addr size).toNat
        (mpermWrite ||| mpermRaw) mmu.perm k =
          Span.fill (addr.toNat - b.toNat) (addr.toNat - b.toNat + size.toNat)
            (mpermWrite ||| mpermRaw) mmu.perm k := by
      intro k
      rw [mmu.offsetEnd_toNat addr (by omega), Mmu.offset_toNat hbase, h.base]
    rw [record_block hne]
    refine ⟨h.base, h.size, ?_, ?_, ?_⟩
    · show _ ≤ (wide addr + alignedSize size).toNat ∧ (wide addr + alignedSize size).toNat ≤ _
      omega
    · intro k hk
      refine (hfill k).trans ?_
      by_cases hin : addr.toNat - b.toNat ≤ k ∧ k < addr.toNat - b.toNat + size.toNat
      · rw [Span.fill_of_mem hin.1 hin.2, Span.fill_of_mem (by omega) (by omega)]
        rfl
      · rw [Span.fill_of_not_mem (by omega), Span.fill_of_not_mem (by omega)]
        exact h.perm k hk
    · intro k hk x hx
      by_cases hin : addr.toNat - b.toNat ≤ k ∧ k < addr.toNat - b.toNat + size.toNat
      · rw [Span.fill_of_mem (by omega) (by omega)] at hx
        cases hx
      · rw [Span.fill_of_not_mem (by omega)] at hx
        exact h.data k hk x hx

/-- Bytes that are written become known. -/
theorem Mmu.Recorded.write {src : Nat → BitVec 8} {vaddr : Vaddr} {size count : Size}
    (h : mmu.Recorded b n ledger) (hend : b.toNat + n.toNat < 2 ^ 32) (hsize : size.toNat < 2 ^ 63)
    (hstep : mmuWriteFrom mmu src vaddr size = .ok (count, mmu')) :
    mmu'.Recorded b n (MmuEvent.record ledger (.writeFrom src vaddr size count)) := by
  have hsized : mmu.size.toNat < 2 ^ 63 := by
    rw [h.size]
    omega
  by_cases haccepts : mmu.Accepts vaddr size mpermWrite
  · rw [mmuWriteFrom_accepted hsize haccepts] at hstep
    cases hstep
    obtain ⟨hbase, hlast⟩ := ((Mmu.accepts_write_iff hsized hsize).mp haccepts).1
    rw [h.base] at hbase hlast
    rw [h.size] at hlast
    have hoffset : (mmu.offset vaddr).toNat = vaddr.toNat - b.toNat := by
      rw [Mmu.offset_toNat (by rw [h.base]; exact hbase), h.base]
    have hoffsetEnd : (mmu.offsetEnd vaddr size).toNat = vaddr.toNat - b.toNat + size.toNat := by
      rw [mmu.offsetEnd_toNat vaddr hsize, hoffset]
    rw [record_written]
    refine ⟨h.base, h.size, h.pointer, ?_, ?_⟩
    · intro k hk
      show Span.update (mmu.offset vaddr).toNat (mmu.offsetEnd vaddr size).toNat
        (fun _ p => permWritten p) mmu.perm k = _
      rw [hoffset, hoffsetEnd]
      by_cases hin : vaddr.toNat - b.toNat ≤ k ∧ k < vaddr.toNat - b.toNat + size.toNat
      · rw [Span.update_of_mem hin.1 hin.2, Span.copy_of_mem (by omega) (by omega), h.perm k hk]
        exact permWritten_recorded _
      · rw [Span.update_of_not_mem (by omega), Span.copy_of_not_mem (by omega)]
        exact h.perm k hk
    · intro k hk x hx
      show Span.copy (mmu.offset vaddr).toNat ((mmu.offset vaddr).toNat + size.toNat) src
        mmu.data k = x
      rw [hoffset]
      by_cases hin : vaddr.toNat - b.toNat ≤ k ∧ k < vaddr.toNat - b.toNat + size.toNat
      · rw [Span.copy_of_mem (by omega) (by omega)] at hx
        rw [Span.copy_of_mem hin.1 hin.2]
        have hindex : b.toNat + k - vaddr.toNat = k - (vaddr.toNat - b.toNat) := by omega
        rw [hindex] at hx
        exact Option.some.inj hx
      · rw [Span.copy_of_not_mem (by omega)] at hx
        rw [Span.copy_of_not_mem (by omega)]
        exact h.data k hk x hx
  · obtain ⟨state, -, hrefused⟩ := @mmuWriteFrom_refused mmu src vaddr size hsize haccepts
    rw [hrefused] at hstep
    cases hstep
    rw [record_refused]
    exact h.flag state

theorem RawStep.recorded {event : MmuEvent} (hlow : 0 < b.toNat)
    (hend : b.toNat + n.toNat < 2 ^ 32) (h : mmu.Recorded b n ledger)
    (hstep : RawStep mmu event mmu') : mmu'.Recorded b n (event.record ledger) := by
  obtain ⟨hstep, hraw⟩ := hstep
  cases event with
  | allocateRaw size addr => exact h.allocate hlow hend hraw hstep
  | writeFrom src vaddr size count => exact h.write hend hraw hstep
  | readInto dst vaddr size count buf =>
      obtain ⟨state, hstate⟩ := mmuReadInto_mmu mmu dst vaddr size
      rw [show mmuReadInto mmu dst vaddr size = (count, buf, mmu') from hstep] at hstate
      rw [show mmu' = { mmu with state := state } from hstate]
      exact h.flag state
  | setperm vaddr size perm => cases hraw
  | addMemory heap addr size perm added => cases hraw
  | allocate size perm addr => cases hraw

/-- The ledger of the calls is right after every run. -/
theorem recorded_run {events : List MmuEvent} (hlow : 0 < b.toNat)
    (hend : b.toNat + n.toNat < 2 ^ 32) (h : mmu.Recorded b n fun _ => none)
    (hrun : Run RawStep mmu events mmu') : mmu'.Recorded b n (lastWritten events) := by
  induction hrun with
  | nil => exact h
  | snoc _ hstep ih =>
      rw [lastWritten_snoc]
      exact hstep.recorded hlow hend ih

/-! ## Reading -/

/-- A read inside the memory succeeds exactly when the last call that covers each of its
bytes has written it, and returns what that call wrote. -/
theorem initialized_read {heap : Heap} {events : List MmuEvent} {v : Vaddr} {count : Size}
    (hlow : 0 < b.toNat) (hend : b.toNat + n.toNat < 2 ^ 32)
    (hinit : mmuInit heap b n = .ok (some mmu)) (hrun : Run RawStep mmu events mmu')
    (hpos : 0 < count.toNat) (hfirst : b.toNat ≤ v.toNat)
    (hlast : v.toNat + count.toNat ≤ b.toNat + n.toNat) (dst : Nat → BitVec 8) :
    ((mmuReadInto mmu' dst v count).1 = count ↔
        ∀ i < count.toNat, ∃ x, LastWrite events (v.toNat + i) x) ∧
      ((mmuReadInto mmu' dst v count).1 = count →
        ∀ i < count.toNat,
          LastWrite events (v.toNat + i) ((mmuReadInto mmu' dst v count).2.1 i)) := by
  have hrecorded := recorded_run hlow hend (mmuInit_recorded hinit) hrun
  have hoffset : (mmu'.offset v).toNat = v.toNat - b.toNat := by
    rw [Mmu.offset_toNat (by rw [hrecorded.base]; exact hfirst), hrecorded.base]
  have hsized : mmu'.size.toNat < 2 ^ 63 := by
    rw [hrecorded.size]
    omega
  have hholds : mmu'.Holds v count.toNat := by
    unfold Mmu.Holds
    rw [hrecorded.base, hrecorded.size]
    exact ⟨hfirst, hlast⟩
  have hreadable : ∀ i < count.toNat,
      ((mmu'.permFrom v i).Readable ↔ ∃ x, LastWrite events (v.toNat + i) x) := by
    intro i hi
    have hindex : b.toNat + (v.toNat - b.toNat + i) = v.toNat + i := by omega
    unfold Mmu.permFrom
    rw [hoffset, hrecorded.perm _ (by omega), recordedPerm_readable, hindex,
      Option.isSome_iff_exists]
    exact exists_congr fun x => lastWritten_eq_some_iff
  have haccepts : mmu'.Accepts v count mpermRead ↔
      ∀ i < count.toNat, ∃ x, LastWrite events (v.toNat + i) x := by
    rw [Mmu.accepts_read_iff hsized (by omega), and_iff_right hholds]
    exact forall₂_congr hreadable
  by_cases hall : mmu'.Accepts v count mpermRead
  · rw [mmuReadInto_accepted hall]
    refine ⟨iff_of_true rfl (haccepts.mp hall), ?_⟩
    intro hmoved i hi
    obtain ⟨x, hx⟩ := haccepts.mp hall i hi
    have hledger := lastWritten_eq_some_iff.mpr hx
    have hindex : b.toNat + (v.toNat - b.toNat + i) = v.toNat + i := by omega
    rw [← hindex] at hledger
    have hdata : mmu'.byteFrom v i = x := by
      unfold Mmu.byteFrom
      rw [hoffset]
      exact hrecorded.data _ (by omega) x hledger
    show LastWrite events (v.toNat + i) (Span.copy 0 count.toNat (mmu'.byteFrom v) dst i)
    rw [Span.copy_of_mem (Nat.zero_le i) hi, Nat.sub_zero, hdata]
    exact hx
  · obtain ⟨state, -, hrefused⟩ := @mmuReadInto_refused mmu' dst v count hall
    rw [hrefused]
    have hne : ¬ (0 : Size) = count := by
      intro hzero
      rw [← hzero] at hpos
      exact absurd hpos (by decide)
    exact ⟨iff_of_false hne fun hwritten => hall (haccepts.mpr hwritten),
      fun hmoved => absurd hmoved hne⟩

/-- A block of which the first word was written, and a read of that word. -/
theorem writtenWord_read : ∃ mmu₀ mmu : Mmu,
    mmuInit generousHeap 0x10000 0x100 = .ok (some mmu₀) ∧
    Run RawStep mmu₀ [.allocateRaw 0x10 0x10000, .writeFrom (fun _ => 0x55) 0x10000 4 4] mmu ∧
    ∀ dst, (mmuReadInto mmu dst 0x10000 4).1 = 4 := by
  obtain ⟨mmu₀, mmu₁, mmu, hinit, hblock, hwrite⟩ : ∃ mmu₀ mmu₁ mmu : Mmu,
      mmuInit generousHeap 0x10000 0x100 = .ok (some mmu₀) ∧
      RawStep mmu₀ (.allocateRaw 0x10 0x10000) mmu₁ ∧
      RawStep mmu₁ (.writeFrom (fun _ => 0x55) 0x10000 4 4) mmu := by
    refine ⟨_, _, _, rfl, ⟨rfl, ?_⟩, ⟨rfl, ?_⟩⟩
    · show (0x10 : Size).toNat < 2 ^ 31
      decide
    · show (4 : Size).toNat < 2 ^ 63
      decide
  have hrun := ((Run.single hblock).snoc hwrite)
  refine ⟨mmu₀, mmu, hinit, hrun, ?_⟩
  intro dst
  have hread := @initialized_read mmu₀ mmu 0x10000 0x100 generousHeap _ 0x10000 4 (by decide)
    (by decide) hinit hrun (by decide) (by decide) (by decide) dst
  refine hread.1.mpr ?_
  intro i hi
  have hsize : (4 : Size).toNat = 4 := rfl
  have haddr : (0x10000 : Vaddr).toNat = 0x10000 := rfl
  exact ⟨0x55, [_], _, [], rfl, ⟨_, _, _, rfl, by omega, by omega, rfl⟩, nofun⟩

end Steps

end CRiscV
