/-
What the two transfers of the MMU do: when they are accepted, what an accepted
one changes, and that a refused one changes the state flag only.
-/
import CRiscV.Mmu.Model

namespace CRiscV

/-- The range `[vaddr, vaddr + n)` is inside the memory. -/
def Mmu.Holds (mmu : Mmu) (vaddr : Vaddr) (n : Nat) : Prop :=
  mmu.base.toNat ≤ vaddr.toNat ∧ vaddr.toNat + n ≤ mmu.base.toNat + mmu.size.toNat

def Perm.Readable (p : Perm) : Prop := p &&& mpermRead = mpermRead

def Perm.Writable (p : Perm) : Prop := p &&& mpermWrite = mpermWrite ∨ p &&& mpermRaw = mpermRaw

instance (p : Perm) : Decidable p.Readable := inferInstanceAs (Decidable (_ = _))

instance (p : Perm) : Decidable p.Writable := inferInstanceAs (Decidable (_ ∨ _))

/-- Byte `i` of the memory from `vaddr` on. -/
def Mmu.byteFrom (mmu : Mmu) (vaddr : Vaddr) (i : Nat) : BitVec 8 :=
  mmu.data ((mmu.offset vaddr).toNat + i)

def Mmu.permFrom (mmu : Mmu) (vaddr : Vaddr) (i : Nat) : Perm :=
  mmu.perm ((mmu.offset vaddr).toNat + i)

theorem wide_toNat (v : Word) : (wide v).toNat = v.toNat := by
  rw [wide, BitVec.toNat_setWidth, Nat.mod_eq_of_lt]
  have := v.isLt
  omega

theorem wide_lt (v : Word) : (wide v).toNat < 2 ^ 32 := by
  rw [wide_toNat]
  exact v.isLt

theorem setWidth_wide (v : Word) : (wide v).setWidth 32 = v := by
  simp [wide]

theorem wide_eq_zero_iff {v : Word} : wide v = 0 ↔ v = 0 := by
  constructor
  · intro h
    rw [← setWidth_wide v, h]
    rfl
  · intro h
    rw [h]
    rfl

theorem pos_of_ne_zero {v : Word} (hne : v ≠ 0) : 0 < v.toNat := by
  have hpos : v.toNat ≠ 0 := fun hzero => hne (BitVec.eq_of_toNat_eq hzero)
  omega

theorem Mmu.offset_toNat {mmu : Mmu} {vaddr : Vaddr} (h : mmu.base.toNat ≤ vaddr.toNat) :
    (mmu.offset vaddr).toNat = vaddr.toNat - mmu.base.toNat := by
  have := vaddr.isLt
  rw [Mmu.offset, wide_toNat, BitVec.toNat_sub]
  omega

theorem Mmu.offset_lt (mmu : Mmu) (vaddr : Vaddr) : (mmu.offset vaddr).toNat < 2 ^ 32 := by
  rw [Mmu.offset, wide_toNat]
  exact (vaddr - mmu.base).isLt

theorem Mmu.offsetEnd_toNat (mmu : Mmu) (vaddr : Vaddr) {n : Size} (hn : n.toNat < 2 ^ 63) :
    (mmu.offsetEnd vaddr n).toNat = (mmu.offset vaddr).toNat + n.toNat := by
  have := mmu.offset_lt vaddr
  rw [Mmu.offsetEnd, BitVec.toNat_add]
  omega

/-- The offset of a later address, as long as addresses do not wrap. -/
theorem Mmu.offset_add {mmu : Mmu} {a : Vaddr} {k : Nat} (hbase : mmu.base.toNat ≤ a.toNat)
    (hk : a.toNat + k < 2 ^ 32) :
    (mmu.offset (a + BitVec.ofNat 32 k)).toNat = (mmu.offset a).toNat + k := by
  have hsum : (a + BitVec.ofNat 32 k).toNat = a.toNat + k := by
    rw [BitVec.toNat_add, BitVec.toNat_ofNat]
    omega
  rw [Mmu.offset_toNat hbase, Mmu.offset_toNat (by omega), hsum]
  omega

/-! ## Permissions -/

/-- Masking by `a` cannot give a value with a bit outside `a`. -/
theorem and_ne_of_not_sub {p a b : Perm} (h : b &&& a ≠ b) : p &&& a ≠ b := by
  intro hp
  apply h
  rw [← hp, BitVec.and_assoc, BitVec.and_self]

theorem permAllows_read {p : Perm} : permAllows mpermRead p = true ↔ p.Readable := by
  have hw : p &&& mpermWrite ≠ mpermRead := and_ne_of_not_sub (by decide)
  have he : p &&& mpermExec ≠ mpermRead := and_ne_of_not_sub (by decide)
  have hrw : (mpermRead == mpermWrite) = false := by decide
  simp [permAllows, Perm.Readable, hw, he, hrw]

theorem permAllows_write {p : Perm} : permAllows mpermWrite p = true ↔ p.Writable := by
  have hr : p &&& mpermRead ≠ mpermWrite := and_ne_of_not_sub (by decide)
  have he : p &&& mpermExec ≠ mpermWrite := and_ne_of_not_sub (by decide)
  simp [permAllows, Perm.Writable, hr, he]

/-- A byte that could be read, now or after a write, can be read after a write. -/
theorem permWritten_readable {p : Perm} (h : p.Readable ∨ p &&& mpermRaw = mpermRaw) :
    (permWritten p).Readable := by
  unfold permWritten
  by_cases hraw : p &&& mpermRaw = mpermRaw
  · rw [if_pos hraw, Perm.Readable, BitVec.or_assoc, BitVec.and_comm, BitVec.and_or_distrib_left,
      BitVec.and_or_distrib_left, ← BitVec.and_assoc, BitVec.and_comm mpermRead p,
      BitVec.and_assoc]
    have h1 : mpermRead &&& mpermWrite = 0 := by decide
    have h2 : mpermRead &&& mpermExec = 0 := by decide
    rw [h1, h2]
    simp
  · rw [if_neg hraw]
    cases h with
    | inl hread => exact hread
    | inr hraw' => exact absurd hraw' hraw

/-! ## Acceptance -/

theorem Mmu.outside_eq_false_iff {mmu : Mmu} {vaddr : Vaddr} {n : Size}
    (hsize : mmu.size.toNat < 2 ^ 63) (hn : n.toNat < 2 ^ 63) :
    mmu.outside vaddr n = false ↔ mmu.Holds vaddr n.toNat := by
  have hbase := mmu.base.isLt
  have hvaddr := vaddr.isLt
  have hstart : (wide vaddr + n).toNat = vaddr.toNat + n.toNat := by
    rw [BitVec.toNat_add, wide_toNat]
    omega
  have hend : (wide mmu.base + mmu.size).toNat = mmu.base.toNat + mmu.size.toNat := by
    rw [BitVec.toNat_add, wide_toNat]
    omega
  simp only [Mmu.outside, Mmu.Holds, Bool.or_eq_false_iff, decide_eq_false_iff_not, gt_iff_lt,
    BitVec.lt_def, hstart, hend, Nat.not_lt]

theorem mmuCheckAccess_iff (mmu : Mmu) (vaddr : Vaddr) {n : Size} (perm : Perm)
    (hn : n.toNat < 2 ^ 63) :
    mmuCheckAccess mmu vaddr n perm = true ↔
      ∀ i < n.toNat, permAllows perm (mmu.permFrom vaddr i) = true := by
  rw [mmuCheckAccess, Span.all_eq_true_iff, mmu.offsetEnd_toNat vaddr hn]
  constructor
  · intro h i hi
    exact h _ (by omega) (by omega)
  · intro h i hlo hhi
    have hp := h (i - (mmu.offset vaddr).toNat) (by omega)
    rwa [Mmu.permFrom, Nat.add_sub_cancel' hlo] at hp

/-- The MMU after an accepted write. -/
def Mmu.written (mmu : Mmu) (src : Nat → BitVec 8) (vaddr : Vaddr) (size : Size) : Mmu :=
  let lo := mmu.offset vaddr
  let hi := mmu.offsetEnd vaddr size
  { mmu with
    state := .ok
    data := Span.copy lo.toNat (lo.toNat + size.toNat) src mmu.data
    perm := Span.update lo.toNat hi.toNat (fun _ p => permWritten p) mmu.perm
    dirty := Span.fill (lo / dirtyPageSize).toNat (hi / dirtyPageSize).toNat true mmu.dirty }

theorem Mmu.written_congr {mmu : Mmu} {src src' : Nat → BitVec 8} {vaddr : Vaddr} {n : Size}
    (h : ∀ i < n.toNat, src i = src' i) : mmu.written src vaddr n = mmu.written src' vaddr n := by
  have hcopy : ∀ lo, Span.copy lo (lo + n.toNat) src mmu.data =
      Span.copy lo (lo + n.toNat) src' mmu.data := by
    intro lo
    apply Span.copy_congr
    intro i hi
    exact h i (by omega)
  simp only [Mmu.written, hcopy]

/-- The two checks of a transfer that asks for `perm`. -/
def Mmu.Accepts (mmu : Mmu) (vaddr : Vaddr) (n : Size) (perm : Perm) : Prop :=
  mmu.outside vaddr n = false ∧ mmuCheckAccess mmu vaddr n perm = true

section Accepts

variable {mmu : Mmu} {src dst : Nat → BitVec 8} {vaddr : Vaddr} {n : Size}

theorem Mmu.accepts_read_iff (hsize : mmu.size.toNat < 2 ^ 63) (hn : n.toNat < 2 ^ 63) :
    mmu.Accepts vaddr n mpermRead ↔
      mmu.Holds vaddr n.toNat ∧ ∀ i < n.toNat, (mmu.permFrom vaddr i).Readable := by
  unfold Mmu.Accepts
  rw [Mmu.outside_eq_false_iff hsize hn, mmuCheckAccess_iff mmu vaddr mpermRead hn]
  simp only [permAllows_read]

theorem Mmu.accepts_write_iff (hsize : mmu.size.toNat < 2 ^ 63) (hn : n.toNat < 2 ^ 63) :
    mmu.Accepts vaddr n mpermWrite ↔
      mmu.Holds vaddr n.toNat ∧ ∀ i < n.toNat, (mmu.permFrom vaddr i).Writable := by
  unfold Mmu.Accepts
  rw [Mmu.outside_eq_false_iff hsize hn, mmuCheckAccess_iff mmu vaddr mpermWrite hn]
  simp only [permAllows_write]

theorem Mmu.Accepts.base_le {perm : Perm} (h : mmu.Accepts vaddr n perm) :
    mmu.base.toNat ≤ vaddr.toNat := by
  have hout := h.1
  simp only [Mmu.outside, Bool.or_eq_false_iff, decide_eq_false_iff_not, BitVec.lt_def] at hout
  omega

/-- An accepted transfer is inside the memory, whatever its size. -/
theorem Mmu.Accepts.holds {perm : Perm} (h : mmu.Accepts vaddr n perm) (hn : n.toNat < 2 ^ 63) :
    mmu.Holds vaddr n.toNat := by
  have hbase := h.base_le
  have hout := h.1
  have hend : (wide vaddr + n).toNat = vaddr.toNat + n.toNat := by
    have hvaddr := vaddr.isLt
    rw [BitVec.toNat_add, wide_toNat]
    omega
  have hle : (wide mmu.base + mmu.size).toNat ≤ mmu.base.toNat + mmu.size.toNat := by
    rw [BitVec.toNat_add, wide_toNat]
    exact Nat.mod_le _ _
  simp only [Mmu.outside, Bool.or_eq_false_iff, decide_eq_false_iff_not, gt_iff_lt, BitVec.lt_def,
    hend] at hout
  exact ⟨hbase, by omega⟩

/-- A transfer inside an accepted one is accepted. -/
theorem Mmu.Accepts.sub {perm : Perm} (h : mmu.Accepts vaddr n perm) {k : Nat} {n' : Size}
    (haddr : vaddr.toNat + n.toNat < 2 ^ 32) (hsub : k + n'.toNat ≤ n.toNat) :
    mmu.Accepts (vaddr + BitVec.ofNat 32 k) n' perm := by
  have hbase := h.base_le
  have hsum : (vaddr + BitVec.ofNat 32 k).toNat = vaddr.toNat + k := by
    rw [BitVec.toNat_add, BitVec.toNat_ofNat]
    omega
  obtain ⟨hout, hcheck⟩ := h
  rw [mmuCheckAccess_iff mmu vaddr perm (by omega)] at hcheck
  constructor
  · have hend : (wide vaddr + n).toNat = vaddr.toNat + n.toNat := by
      rw [BitVec.toNat_add, wide_toNat]
      omega
    have hend' : (wide (vaddr + BitVec.ofNat 32 k) + n').toNat =
        vaddr.toNat + k + n'.toNat := by
      rw [BitVec.toNat_add, wide_toNat, hsum]
      omega
    simp only [Mmu.outside, Bool.or_eq_false_iff, decide_eq_false_iff_not, gt_iff_lt,
      BitVec.lt_def, hend, hend', hsum] at hout ⊢
    omega
  · rw [mmuCheckAccess_iff mmu _ perm (by omega)]
    intro i hi
    have hbyte := hcheck (k + i) (by omega)
    unfold Mmu.permFrom at hbyte ⊢
    rw [Mmu.offset_add hbase (by omega), Nat.add_assoc]
    exact hbyte

/-- The assertion behind the range check of a write holds. -/
theorem Mmu.not_beyond (hn : n.toNat < 2 ^ 63) (h : mmu.outside vaddr n = false) :
    ¬ wide vaddr > wide mmu.base + mmu.size := by
  have hvaddr := vaddr.isLt
  have hsum : (wide vaddr + n).toNat = vaddr.toNat + n.toNat := by
    rw [BitVec.toNat_add, wide_toNat]
    omega
  unfold Mmu.outside at h
  simp only [Bool.or_eq_false_iff, decide_eq_false_iff_not, gt_iff_lt, BitVec.lt_def, hsum] at h
  rw [gt_iff_lt, BitVec.lt_def, wide_toNat]
  omega

theorem mmuWriteFrom_accepted (hn : n.toNat < 2 ^ 63) (h : mmu.Accepts vaddr n mpermWrite) :
    mmuWriteFrom mmu src vaddr n = .ok (n, mmu.written src vaddr n) := by
  rw [mmuWriteFrom, h.1, if_neg Bool.false_ne_true, if_neg (Mmu.not_beyond hn h.1), h.2]
  rfl

theorem mmuReadInto_accepted (h : mmu.Accepts vaddr n mpermRead) :
    mmuReadInto mmu dst vaddr n =
      (n, Span.copy 0 n.toNat (mmu.byteFrom vaddr) dst, { mmu with state := .ok }) := by
  rw [mmuReadInto, h.1, if_neg Bool.false_ne_true, h.2]
  rfl

/-- A refused write sets the state flag and nothing else. -/
theorem mmuWriteFrom_refused (hn : n.toNat < 2 ^ 63) (h : ¬ mmu.Accepts vaddr n mpermWrite) :
    ∃ state, state ≠ .ok ∧
      mmuWriteFrom mmu src vaddr n = .ok (0, { mmu with state := state }) := by
  unfold mmuWriteFrom
  cases hout : mmu.outside vaddr n with
  | true => exact ⟨.readPageFault, by decide, rfl⟩
  | false =>
      rw [if_neg Bool.false_ne_true, if_neg (Mmu.not_beyond hn hout)]
      cases hcheck : mmuCheckAccess mmu vaddr n mpermWrite with
      | true => exact absurd ⟨hout, hcheck⟩ h
      | false => exact ⟨.accessDenied, by decide, rfl⟩

theorem mmuReadInto_refused (h : ¬ mmu.Accepts vaddr n mpermRead) :
    ∃ state, state ≠ .ok ∧
      mmuReadInto mmu dst vaddr n = (0, dst, { mmu with state := state }) := by
  unfold mmuReadInto
  cases hout : mmu.outside vaddr n with
  | true => exact ⟨.writePageFault, by decide, rfl⟩
  | false =>
      rw [if_neg Bool.false_ne_true]
      cases hcheck : mmuCheckAccess mmu vaddr n mpermRead with
      | true => exact absurd ⟨hout, hcheck⟩ h
      | false => exact ⟨.accessDenied, by decide, rfl⟩

end Accepts

/-- A read sets the state flag and nothing else. -/
theorem mmuReadInto_mmu (mmu : Mmu) (dst : Nat → BitVec 8) (vaddr : Vaddr) (n : Size) :
    ∃ state, (mmuReadInto mmu dst vaddr n).2.2 = { mmu with state := state } := by
  unfold mmuReadInto
  split
  · exact ⟨_, rfl⟩
  · split
    · exact ⟨_, rfl⟩
    · exact ⟨_, rfl⟩

end CRiscV
