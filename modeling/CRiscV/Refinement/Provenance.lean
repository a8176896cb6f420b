/-
Where the bytes of the memory come from.  Behind any turns of the thread loop, the cell at
an address is as it was at the start, or as the last turn that has set it left it: a store
of the guest, a block that the host handed over in a system call, or a block of `brk`.
-/
import CRiscV.Data.Patch
import CRiscV.Emulator.Effects
import CRiscV.Mmu.Cells
import CRiscV.Refinement.Hart
import CRiscV.Refinement.ReadOnly

namespace CRiscV

open Transition (Run)

/-! ## The patches of a turn -/

def Transfer.patch (x : Transfer) : Patch (BitVec 8 × Perm) where
  range := x.range
  apply a c :=
    if x.addr.toNat ≤ a ∧ a < x.addr.toNat + x.count.toNat then
      (x.src (a - x.addr.toNat), permWritten c.2)
    else c
  outside _ ha _ := if_neg ha

/-- A block of `brk`, with what it held before. -/
def handedOut (addr : Vaddr) : Patch (BitVec 8 × Perm) where
  range := Set.Ico addr.toNat (addr.toNat + 0x100)
  apply a c :=
    if addr.toNat ≤ a ∧ a < addr.toNat + 0x100 then (c.1, mpermRaw ||| mpermWrite) else c
  outside _ ha _ := if_neg ha

/-- What a turn lays on the memory. -/
inductive Turn.Lays (t : Turn) (host : Host) (t' : Turn) : Patch (BitVec 8 × Perm) → Prop
  | stored {x : Transfer} (asked : t.machine.storing = some x)
      (accepted : t.machine.bus.mmu.Accepts x.addr x.count mpermWrite) : Lays t host t' x.patch
  | received {m : Machine} {x : Transfer} (handled : t'.handled = some m)
      (asked : m.receiving host = some x)
      (accepted : t.machine.bus.mmu.Accepts x.addr x.count mpermWrite) : Lays t host t' x.patch
  | allocated {m : Machine} (handled : t'.handled = some m) (allocates : m.Allocates) :
      Lays t host t' (handedOut (t.machine.bus.mmu.currVaddr.setWidth 32))

section Cells

variable {mmu mmu' : Mmu} {a : Nat}

theorem Mmu.SameMemory.cells (h : mmu.SameMemory mmu') : mmu'.cells = mmu.cells := by
  obtain ⟨state, rfl⟩ := h
  rfl

theorem Mmu.written_cells {x : Transfer} (hsized : mmu.size.toNat < 2 ^ 63)
    (hcount : x.count.toNat < 2 ^ 63) (haccepts : mmu.Accepts x.addr x.count mpermWrite) (a : Nat) :
    (mmu.written x.src x.addr x.count).cells a = (mmu.cells a).map (x.patch.apply a) := by
  have hlo : mmu.base.toNat ≤ x.addr.toNat := ((Mmu.accepts_write_iff hsized hcount).mp haccepts).1.1
  have hoffset := Mmu.offset_toNat hlo
  have hend := mmu.offsetEnd_toNat x.addr hcount
  unfold Mmu.cells
  by_cases hin : mmu.base.toNat ≤ a ∧ a < mmu.base.toNat + mmu.size.toNat
  · rw [if_pos hin]
    refine (if_pos hin).trans ?_
    unfold Mmu.written Transfer.patch
    dsimp only
    rw [Option.map_some]
    by_cases hrange : x.addr.toNat ≤ a ∧ a < x.addr.toNat + x.count.toNat
    · have hindex : a - mmu.base.toNat - (mmu.offset x.addr).toNat = a - x.addr.toNat := by omega
      rw [if_pos hrange, Span.copy_of_mem (by omega) (by omega),
        Span.update_of_mem (by omega) (by omega), hindex]
    · rw [if_neg hrange, Span.copy_of_not_mem (by omega), Span.update_of_not_mem (by omega)]
  · rw [if_neg hin]
    exact if_neg hin

theorem mmuAllocate_cells {addr : Vaddr} (hsized : mmu.size.toNat < 2 ^ 63)
    (h : mmuAllocate mmu 0x100 (mpermRaw ||| mpermWrite) = .ok (addr, mmu')) :
    mmu' = mmu ∨ ∀ a, mmu'.cells a =
      (mmu.cells a).map ((handedOut (mmu.currVaddr.setWidth 32)).apply a) := by
  rcases mmuAllocate_cases h with ⟨-, rfl⟩ | ⟨rfl, -, -, hinside, rfl⟩
  · exact Or.inl rfl
  refine Or.inr fun a => ?_
  generalize hstart : (mmu.currVaddr.setWidth 32 : Vaddr) = start at hinside ⊢
  have hblock : (0x100 : Size).toNat = 0x100 := rfl
  have hlo : mmu.base.toNat ≤ start.toNat :=
    ((Mmu.outside_eq_false_iff hsized (by decide)).mp hinside).1
  have hoffset := Mmu.offset_toNat hlo
  have hend := mmu.offsetEnd_toNat start (show (0x100 : Size).toNat < 2 ^ 63 by decide)
  unfold Mmu.cells handedOut
  dsimp only
  by_cases hin : mmu.base.toNat ≤ a ∧ a < mmu.base.toNat + mmu.size.toNat
  · rw [if_pos hin, if_pos hin, Option.map_some]
    by_cases hrange : start.toNat ≤ a ∧ a < start.toNat + 0x100
    · rw [if_pos hrange, Span.fill_of_mem (by omega) (by omega)]
    · rw [if_neg hrange, Span.fill_of_not_mem (by omega)]
  · rw [if_neg hin, if_neg hin, Option.map_none]

theorem Mmu.Moves.cells {x : Option Transfer} (h : mmu.Moves x mmu')
    (hsized : mmu.size.toNat < 2 ^ 63) :
    mmu'.cells = mmu.cells ∨ ∃ y, x = some y ∧ mmu.Accepts y.addr y.count mpermWrite ∧
      ∀ a, mmu'.cells a = (mmu.cells a).map (y.patch.apply a) := by
  rcases h with hsame | ⟨y, hy, hcount, haccepts, hsame⟩
  · exact Or.inl hsame.cells
  · refine Or.inr ⟨y, hy, haccepts, fun a => ?_⟩
    rw [hsame.cells, Mmu.written_cells hsized hcount haccepts]

end Cells

section Turns

variable {t t' : Turn} {host : Host} {hosts : List Host} {a : Nat}

/-- A turn leaves the memory as it is, or lays one patch on it. -/
theorem ThreadStep.lays (hsized : t.machine.bus.mmu.size.toNat < 2 ^ 63)
    (h : ThreadStep emulatorTurn t host t') :
    t'.machine.bus.mmu.cells = t.machine.bus.mmu.cells ∨ ∃ p, t.Lays host t' p ∧
      ∀ a, t'.machine.bus.mmu.cells a = (t.machine.bus.mmu.cells a).map (p.apply a) := by
  cases h.effect with
  | moved x hasked hmoves =>
      refine (hmoves.cells hsized).imp_right ?_
      rintro ⟨y, hy, haccepts, hcells⟩
      rw [hy] at hasked
      rcases hasked with hstore | ⟨m, hhandled, hreceive⟩
      · exact ⟨_, .stored hstore.symm haccepts, hcells⟩
      · exact ⟨_, .received hhandled hreceive.symm haccepts, hcells⟩
  | allocated m addr hhandled hallocates hcall =>
      refine (mmuAllocate_cells hsized hcall).imp (congrArg Mmu.cells) fun hcells => ?_
      exact ⟨_, .allocated hhandled hallocates, hcells⟩

/-- In the run from `t` to `t'`, the turn from `u` to `v` is the last to set the cell at `a`, by
the patch `p`. -/
structure LastLaid (t : Turn) (hosts : List Host) (t' : Turn) (a : Nat) (u : Turn) (host : Host)
    (v : Turn) (p : Patch (BitVec 8 × Perm)) : Prop where
  split : ∃ before behind, hosts = before ++ host :: behind ∧
    Run (ThreadStep emulatorTurn) t before u ∧ Run (ThreadStep emulatorTurn) v behind t'
  turn : ThreadStep emulatorTurn u host v
  lays : u.Lays host v p
  mem : a ∈ p.range
  cell : t'.machine.bus.mmu.cells a = (u.machine.bus.mmu.cells a).map (p.apply a)

/-- Every cell is as at the start, or as the last turn that has set it left it. -/
theorem memory_provenance (hsized : t.machine.bus.mmu.size.toNat < 2 ^ 63)
    (h : Run (ThreadStep emulatorTurn) t hosts t') (a : Nat) :
    t'.machine.bus.mmu.cells a = t.machine.bus.mmu.cells a ∨
      ∃ u host v p, LastLaid t hosts t' a u host v p := by
  have hlast := h.last_change (f := fun t => t.machine.bus.mmu.cells a)
    (I := fun t => t.machine.bus.mmu.size.toNat < 2 ^ 63)
    (P := fun u host v => ∃ p, u.Lays host v p ∧ a ∈ p.range ∧
      v.machine.bus.mmu.cells a = (u.machine.bus.mmu.cells a).map (p.apply a)) hsized ?_ ?_
  · refine hlast.imp_right ?_
    rintro ⟨before, host, behind, u, v, hsplit, hbefore, hturn, ⟨p, hlays, hmem, hcell⟩, hbehind,
      hkept⟩
    exact ⟨u, host, v, p, ⟨⟨before, behind, hsplit, hbefore, hbehind⟩, hturn, hlays, hmem,
      hkept.trans hcell⟩⟩
  · intro u host v hsized hturn
    rwa [hturn.extent.2]
  · intro u host v hsized hturn
    rcases hturn.lays hsized with hsame | ⟨p, hlays, hcells⟩
    · exact Or.inl (congrFun hsame a)
    · by_cases hmem : a ∈ p.range
      · exact Or.inr ⟨p, hlays, hmem, hcells a⟩
      · refine Or.inl ((hcells a).trans ?_)
        have hout : p.apply a = id := funext (p.outside a hmem)
        rw [hout, Option.map_id]
        rfl

end Turns

/-! ## A store -/

theorem storedByte_provenance : ∃ (t u : Turn) (host : Host) (v : Turn) (p : Patch (BitVec 8 × Perm)),
    LastLaid (Turn.first (storingMachine (programMmu []))) [quietHost] t 0x10000 u host v p := by
  have hwritable : ∀ i < 1, ((programMmu []).permFrom ramStart i).Writable := by
    intro i _
    show (mpermRead ||| mpermWrite).Writable
    decide
  obtain ⟨t, ⟨hturn, -⟩, hmmu⟩ := @storingMachine_stores (programMmu [])
    (@programMachine_inRam [] (fun _ => 0) ramStart 1 (by decide) (by decide) (by decide))
    hwritable ramStart
  refine ⟨t, (memory_provenance (by decide) (Run.single hturn) 0x10000).resolve_left ?_⟩
  rw [hmmu]
  decide

end CRiscV
