/-
How the cells of the memory may change while a guest runs.  Their permissions are set by the
loader; a store only tells that a byte is known, and `brk` hands out cells behind the break.
-/
import CRiscV.Refinement.Break
import CRiscV.Refinement.Provenance

namespace CRiscV

open Transition (Run)

def Perm.Executable (p : Perm) : Prop := p &&& mpermExec = mpermExec

instance (p : Perm) : Decidable p.Executable :=
  inferInstanceAs (Decidable (p &&& mpermExec = mpermExec))

/-! ## A byte that is written -/

section Written

variable {p : Perm}

theorem permWritten_raw_and (h : p &&& mpermRaw = mpermRaw) (m : Perm) :
    permWritten p &&& m = ((mpermRead ||| mpermWrite) &&& m) ||| (p &&& (mpermExec &&& m)) := by
  rw [permWritten, if_pos h, BitVec.and_or_distrib_right, BitVec.and_assoc]

theorem permWritten_of_not_raw (h : p &&& mpermRaw ≠ mpermRaw) : permWritten p = p := if_neg h

/-- A write makes nothing executable, and leaves nothing less so. -/
theorem permWritten_executable (p : Perm) : (permWritten p).Executable ↔ p.Executable := by
  unfold Perm.Executable
  by_cases hraw : p &&& mpermRaw = mpermRaw
  · rw [permWritten_raw_and hraw, BitVec.and_self, show (mpermRead ||| mpermWrite) &&& mpermExec = 0#32
      by decide, BitVec.zero_or]
  · rw [permWritten_of_not_raw hraw]

/-- The byte is not waiting for its first write any more. -/
theorem permWritten_not_raw (p : Perm) : permWritten p &&& mpermRaw ≠ mpermRaw := by
  by_cases hraw : p &&& mpermRaw = mpermRaw
  · rw [permWritten_raw_and hraw, show mpermExec &&& mpermRaw = 0#32 by decide, BitVec.and_zero]
    decide
  · rwa [permWritten_of_not_raw hraw]

/-- A second write tells nothing new. -/
theorem permWritten_twice (p : Perm) : permWritten (permWritten p) = permWritten p :=
  permWritten_of_not_raw (permWritten_not_raw p)

end Written

/-! ## A cell -/

/-- The permission of a byte of a block of `brk`, before its first write and behind it. -/
def Perm.HandedOut (p : Perm) : Prop := p = mpermRaw ||| mpermWrite ∨ p = mpermRead ||| mpermWrite

/-- How a cell may change: not at all, by stores, or as a cell of a block of `brk`, where it
may be. -/
inductive Ages (free : Prop) (c c' : BitVec 8 × Perm) : Prop
  | kept : c' = c → Ages free c c'
  | stored : c.2.Writable → c'.2 = permWritten c.2 → Ages free c c'
  | handed : free → c'.2.HandedOut → Ages free c c'

theorem Perm.HandedOut.written {p : Perm} (h : p.HandedOut) : (permWritten p).HandedOut := by
  rcases h with heq | heq
  · rw [heq]
    exact Or.inr (by decide)
  · rw [heq]
    exact Or.inr (by decide)

section Ages

variable {free free' : Prop} {c c' c'' : BitVec 8 × Perm}

theorem Ages.mono (h : Ages free c c') (himp : free → free') : Ages free' c c' := by
  cases h with
  | kept heq => exact .kept heq
  | stored hwritable hperm => exact .stored hwritable hperm
  | handed hfree hperm => exact .handed (himp hfree) hperm

/-- One more store. -/
theorem Ages.store (h : Ages free c c') (hwritable : c'.2.Writable)
    (hperm : c''.2 = permWritten c'.2) : Ages free c c'' := by
  cases h with
  | kept heq =>
      rw [heq] at hwritable hperm
      exact .stored hwritable hperm
  | stored hwritable' hperm' =>
      rw [hperm', permWritten_twice] at hperm
      exact .stored hwritable' hperm
  | handed hfree hhanded =>
      refine .handed hfree ?_
      rw [hperm]
      exact hhanded.written

theorem Ages.executable (h : Ages free c c') (hexec : c'.2.Executable) : c.2.Executable := by
  cases h with
  | kept heq => rwa [heq] at hexec
  | stored _ hperm => rwa [hperm, permWritten_executable] at hexec
  | handed _ hperm =>
      rcases hperm with heq | heq
      · rw [heq] at hexec
        exact absurd hexec (by decide)
      · rw [heq] at hexec
        exact absurd hexec (by decide)

/-- Where no block is handed out, a cell stays readable, and stays as it is if it is not
writable. -/
theorem Ages.held (h : Ages free c c') (hheld : ¬ free) :
    (c.2.Readable → c'.2.Readable) ∧ (¬ c.2.Writable → c' = c) := by
  cases h with
  | kept heq =>
      rw [heq]
      exact ⟨id, fun _ => rfl⟩
  | stored hwritable hperm =>
      rw [hperm]
      exact ⟨fun hread => permWritten_readable (Or.inl hread), absurd hwritable⟩
  | handed hfree => exact absurd hfree hheld

end Ages

/-! ## A turn -/

/-- The memory and the break have 32 bits. -/
structure Mmu.Narrow (mmu : Mmu) : Prop where
  brk : mmu.currVaddr.toNat < 2 ^ 32
  limit : mmu.base.toNat + mmu.size.toNat < 2 ^ 32

section Turns

variable {mmu mmu' : Mmu} {s t : Turn} {host : Host} {hosts : List Host} {a : Nat}
  {c c' : BitVec 8 × Perm}

theorem Mmu.Moves.brk {x : Option Transfer} (h : mmu.Moves x mmu') :
    mmu'.currVaddr = mmu.currVaddr := by
  rcases h with ⟨state, rfl⟩ | ⟨y, -, -, -, state, rfl⟩
  · rfl
  · rfl

/-- The break goes up only, and the blocks of `brk` lie behind it. -/
theorem ThreadStep.brk (hnarrow : s.machine.bus.mmu.Narrow) (h : ThreadStep emulatorTurn s host t) :
    t.machine.bus.mmu.Narrow ∧ s.machine.brk ≤ t.machine.brk := by
  obtain ⟨hbase, hsize⟩ := h.extent
  have hlimit := hnarrow.limit
  rw [← hbase, ← hsize] at hlimit
  unfold Machine.brk
  cases h.effect with
  | moved x _ hmoves =>
      rw [hmoves.brk]
      refine ⟨⟨?_, hlimit⟩, Nat.le_refl _⟩
      rw [hmoves.brk]
      exact hnarrow.brk
  | allocated m addr _ _ hcall =>
      obtain ⟨hup, -⟩ := allocate_moves hnarrow.brk hcall
      refine ⟨⟨?_, hlimit⟩, hup⟩
      rcases mmuAllocate_cases hcall with ⟨-, hsame⟩ | ⟨-, -, hroom, -, hgrown⟩
      · rw [hsame]
        exact hnarrow.brk
      · have hend := @memory_end s.machine.bus.mmu (by have := hnarrow.limit; omega)
        rw [BitVec.lt_def, hend] at hroom
        rw [hgrown]
        exact Nat.lt_trans hroom hnarrow.limit

theorem Transfer.patch_ages {x : Transfer} (hwritable : a ∈ x.range → c.2.Writable) :
    (x.patch.apply a c) = c ∨ c.2.Writable ∧ (x.patch.apply a c).2 = permWritten c.2 := by
  by_cases hmem : a ∈ x.range
  · have happly : x.patch.apply a c = (x.src (a - x.addr.toNat), permWritten c.2) := if_pos hmem
    rw [happly]
    exact Or.inr ⟨hwritable hmem, rfl⟩
  · exact Or.inl (x.patch.outside a hmem c)

/-- An accepted store goes to writable cells. -/
theorem Mmu.Accepts.writable {x : Transfer} (hsized : mmu.size.toNat < 2 ^ 63)
    (hcount : x.count.toNat < 2 ^ 63) (haccepts : mmu.Accepts x.addr x.count mpermWrite)
    (hcell : mmu.cells a = some c) (hmem : a ∈ x.range) : c.2.Writable := by
  obtain ⟨hlo, hhi⟩ := hmem
  have hholds := (Mmu.accepts_write_iff hsized hcount).mp haccepts
  obtain ⟨c', hcell', hwritable⟩ :=
    (Mmu.holds_cells_iff (Q := fun _ c => c.2.Writable) (by omega)).mpr hholds
      (a - x.addr.toNat) (by omega)
  rw [Nat.add_sub_cancel' hlo, hcell] at hcell'
  cases hcell'
  exact hwritable

/-- What a transfer makes of a cell. -/
theorem Mmu.Moves.cell {x : Option Transfer} (hmoves : mmu.Moves x mmu')
    (hsized : mmu.size.toNat < 2 ^ 63) (hcell : mmu.cells a = some c) :
    ∃ c', mmu'.cells a = some c' ∧ (c' = c ∨ c.2.Writable ∧ c'.2 = permWritten c.2) := by
  rcases hmoves with hsame | ⟨y, -, hcount, haccepts, hsame⟩
  · rw [hsame.cells]
    exact ⟨c, hcell, Or.inl rfl⟩
  · rw [hsame.cells, Mmu.written_cells hsized hcount haccepts, hcell]
    exact ⟨_, rfl, Transfer.patch_ages fun hmem => haccepts.writable hsized hcount hcell hmem⟩

/-- What `brk` makes of a cell: the cells that the bump pointer passes are handed out. -/
theorem mmuAllocate_cell {addr : Vaddr} (hnarrow : mmu.Narrow)
    (hcall : mmuAllocate mmu 0x100 (mpermRaw ||| mpermWrite) = .ok (addr, mmu'))
    (hcell : mmu.cells a = some c) :
    ∃ c', mmu'.cells a = some c' ∧
      if mmu.currVaddr.toNat ≤ a ∧ a < mmu'.currVaddr.toNat then c'.2 = mpermRaw ||| mpermWrite
      else c' = c := by
  have hsized : mmu.size.toNat < 2 ^ 63 := by
    have := hnarrow.limit
    omega
  rcases mmuAllocate_cells hsized hcall with rfl | hcells
  · refine ⟨c, hcell, ?_⟩
    rw [if_neg (by omega)]
  rcases mmuAllocate_cases hcall with ⟨-, rfl⟩ | ⟨hstart, -, -, -, hgrown⟩
  · refine ⟨c, hcell, ?_⟩
    rw [if_neg (by omega)]
  have hend : mmu'.currVaddr.toNat = mmu.currVaddr.toNat + 0x100 := by
    rw [hgrown, hstart]
    exact Mmu.start_end hnarrow.brk 0x100
  have haddr := Mmu.start_toNat hnarrow.brk
  rw [hcells, hcell, hend, ← haddr]
  refine ⟨_, rfl, ?_⟩
  by_cases hin : (mmu.currVaddr.setWidth 32 : Vaddr).toNat ≤ a ∧
      a < (mmu.currVaddr.setWidth 32 : Vaddr).toNat + 0x100
  · have happly : (handedOut (mmu.currVaddr.setWidth 32)).apply a c =
        (c.1, mpermRaw ||| mpermWrite) := if_pos hin
    rw [if_pos hin, happly]
  · rw [if_neg hin]
    exact (handedOut _).outside a hin c

/-- What one turn makes of a cell: the cells that the break has passed are handed out, and any
other is kept or stored to. -/
theorem ThreadStep.cell (hnarrow : s.machine.bus.mmu.Narrow) (h : ThreadStep emulatorTurn s host t)
    (hcell : s.machine.bus.mmu.cells a = some c) :
    ∃ c', t.machine.bus.mmu.cells a = some c' ∧
      if s.machine.brk ≤ a ∧ a < t.machine.brk then c'.2 = mpermRaw ||| mpermWrite
      else c' = c ∨ c.2.Writable ∧ c'.2 = permWritten c.2 := by
  have hsized : s.machine.bus.mmu.size.toNat < 2 ^ 63 := by
    have := hnarrow.limit
    omega
  cases h.effect with
  | moved x _ hmoves =>
      have hbrk : ¬ (s.machine.brk ≤ a ∧ a < t.machine.brk) := by
        unfold Machine.brk
        rw [hmoves.brk]
        omega
      simp only [if_neg hbrk]
      exact hmoves.cell hsized hcell
  | allocated m addr _ _ hcall =>
      obtain ⟨c', hcell', hmade⟩ := mmuAllocate_cell hnarrow hcall hcell
      refine ⟨c', hcell', ?_⟩
      by_cases hin : s.machine.brk ≤ a ∧ a < t.machine.brk
      · rw [if_pos hin]
        rwa [if_pos (by exact hin)] at hmade
      · rw [if_neg hin]
        rw [if_neg (by exact hin)] at hmade
        exact Or.inl hmade

/-- What a run has made of a cell. -/
structure Aged (s t : Turn) (a : Nat) (c c' : BitVec 8 × Perm) : Prop where
  ages : Ages (s.machine.brk ≤ a ∧ a < t.machine.brk) c c'
  handed : s.machine.brk ≤ a → a < t.machine.brk → c'.2.HandedOut

/-- A turn more. -/
theorem Aged.turn {u : Turn} {c'' : BitVec 8 × Perm} (h : Aged s t a c c')
    (hup : s.machine.brk ≤ t.machine.brk) (hup' : t.machine.brk ≤ u.machine.brk)
    (hcell : if t.machine.brk ≤ a ∧ a < u.machine.brk then c''.2 = mpermRaw ||| mpermWrite
      else c'' = c' ∨ c'.2.Writable ∧ c''.2 = permWritten c'.2) : Aged s u a c c'' := by
  by_cases hin : t.machine.brk ≤ a ∧ a < u.machine.brk
  · rw [if_pos hin] at hcell
    exact ⟨.handed ⟨Nat.le_trans hup hin.1, hin.2⟩ (Or.inl hcell), fun _ _ => Or.inl hcell⟩
  · rw [if_neg hin] at hcell
    have hages : Ages (s.machine.brk ≤ a ∧ a < u.machine.brk) c c' :=
      h.ages.mono fun hfree => ⟨hfree.1, Nat.lt_of_lt_of_le hfree.2 hup'⟩
    rcases hcell with hkept | ⟨hwritable, hperm⟩
    · rw [hkept]
      exact ⟨hages, fun hlo hhi => h.handed hlo (by omega)⟩
    · refine ⟨hages.store hwritable hperm, fun hlo hhi => ?_⟩
      rw [hperm]
      exact (h.handed hlo (by omega)).written

/-- Behind any run the break has only gone up, nothing has become executable, and a cell in
front of the break is as its stores left it: it is as readable as before, and if it was not
writable it has not changed.  What `brk` has handed out has one of two permissions. -/
theorem permissions_run (hnarrow : s.machine.bus.mmu.Narrow)
    (h : Run (ThreadStep emulatorTurn) s hosts t) (hcell : s.machine.bus.mmu.cells a = some c) :
    s.machine.brk ≤ t.machine.brk ∧ ∃ c', t.machine.bus.mmu.cells a = some c' ∧
      Ages (s.machine.brk ≤ a ∧ a < t.machine.brk) c c' ∧ (c'.2.Executable → c.2.Executable) ∧
        (a < s.machine.brk → (c.2.Readable → c'.2.Readable) ∧ (¬ c.2.Writable → c' = c)) ∧
        (s.machine.brk ≤ a → a < t.machine.brk →
          c'.2 = mpermRaw ||| mpermWrite ∨ c'.2 = mpermRead ||| mpermWrite) := by
  have hall : t.machine.bus.mmu.Narrow ∧ s.machine.brk ≤ t.machine.brk ∧
      ∃ c', t.machine.bus.mmu.cells a = some c' ∧ Aged s t a c c' := by
    induction h with
    | nil =>
        refine ⟨hnarrow, Nat.le_refl _, c, hcell, .kept rfl, fun hlo hhi => ?_⟩
        exact absurd hhi (Nat.not_lt.mpr hlo)
    | @snoc hosts u t host hrun hturn ih =>
        obtain ⟨hnarrow', hup, c', hcell', haged⟩ := ih
        obtain ⟨hnarrow'', hup'⟩ := hturn.brk hnarrow'
        obtain ⟨c'', hcell'', hchange⟩ := hturn.cell hnarrow' hcell'
        exact ⟨hnarrow'', Nat.le_trans hup hup', c'', hcell'', haged.turn hup hup' hchange⟩
  obtain ⟨-, hup, c', hcell', haged⟩ := hall
  exact ⟨hup, c', hcell', haged.ages, haged.ages.executable,
    fun hheld => haged.ages.held fun hin => absurd hin.1 (Nat.not_le.mpr hheld), haged.handed⟩

end Turns

/-! ## A store -/

theorem storedByte_kept : ∃ t, Run (ThreadStep emulatorTurn)
    (Turn.first (storingMachine (programMmu []))) [quietHost] t ∧
      0x10000 ≤ t.machine.brk ∧ ∃ c', t.machine.bus.mmu.cells 0x10001 = some c' ∧
        ¬ c'.2.Executable := by
  have hwritable : ∀ i < 1, ((programMmu []).permFrom ramStart i).Writable := by
    intro i _
    show (mpermRead ||| mpermWrite).Writable
    decide
  obtain ⟨t, ⟨hturn, -⟩, -⟩ := @storingMachine_stores (programMmu [])
    (@programMachine_inRam [] (fun _ => 0) ramStart 1 (by decide) (by decide) (by decide))
    hwritable ramStart
  have hcell : (programMmu []).cells 0x10001 = some (0, mpermRead ||| mpermWrite) := by
    decide
  obtain ⟨hbrk, c', hcell', -, hexec, -⟩ :=
    permissions_run ⟨by decide, by decide⟩ (Run.single hturn) hcell
  exact ⟨t, Run.single hturn, hbrk, c', hcell', fun hexec' => absurd (hexec hexec') (by decide)⟩

end CRiscV
