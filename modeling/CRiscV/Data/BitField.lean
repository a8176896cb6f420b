/-
Bit fields of a machine word: cut out by a shift and a mask, and sign-extended
by a pair of shifts.
-/
import Mathlib.Data.BitVec

namespace CRiscV
namespace BitField

variable {n k : Nat}

/-- A logical shift right followed by a truncation selects a field. -/
theorem setWidth_ushiftRight (w : BitVec n) (start len : Nat) :
    (w >>> start).setWidth len = w.extractLsb' start len := by
  apply BitVec.eq_of_getLsbD_eq
  intro i hi
  simp [hi]

/-- A mask that keeps the low `len` bits has no effect below a truncation to
`len` bits. -/
theorem setWidth_and_mask (w : BitVec n) {mask : BitVec n} {len : Nat}
    (hmask : mask.setWidth len = BitVec.allOnes len) :
    (w &&& mask).setWidth len = w.setWidth len := by
  rw [BitVec.setWidth_and, hmask, BitVec.and_allOnes]

theorem field_of_mask (w : BitVec n) (start : Nat) {mask : BitVec n} {len : Nat}
    (hmask : mask.setWidth len = BitVec.allOnes len) :
    ((w >>> start) &&& mask).setWidth len = w.extractLsb' start len := by
  rw [setWidth_and_mask _ hmask, setWidth_ushiftRight]

theorem msb_setWidth_shiftLeft (x : BitVec k) (hk : k ≤ n) :
    ((x.setWidth n) <<< (n - k)).msb = x.msb := by
  rcases Nat.eq_zero_or_pos k with rfl | hpos
  · simp [BitVec.msb_eq_getLsbD_last]
  · rw [BitVec.msb_eq_getLsbD_last, BitVec.msb_eq_getLsbD_last, BitVec.getLsbD_shiftLeft,
      BitVec.getLsbD_setWidth, show n - 1 - (n - k) = k - 1 by omega]
    simp [show n - 1 < n by omega, show ¬ n - 1 < n - k by omega, show k - 1 < n by omega]

/-- Shifting a field to the top of the word and back arithmetically extends its
sign. -/
theorem signExtend_of_shifts (x : BitVec k) (hk : k ≤ n) :
    ((x.setWidth n) <<< (n - k)).sshiftRight (n - k) = x.signExtend n := by
  apply BitVec.eq_of_getLsbD_eq
  intro i hi
  rw [BitVec.getLsbD_sshiftRight, BitVec.getLsbD_signExtend, msb_setWidth_shiftLeft x hk,
    BitVec.getLsbD_shiftLeft, BitVec.getLsbD_setWidth]
  by_cases hik : i < k
  · simp [hi, hik, show ¬ n ≤ i by omega, show n - k + i < n by omega]
  · simp [hi, hik, show ¬ n ≤ i by omega, show ¬ n - k + i < n by omega]

theorem getLsbD_append_zero (x : BitVec k) (i : Nat) :
    (x ++ 0#1).getLsbD i = (decide (0 < i) && x.getLsbD (i - 1)) := by
  rw [BitVec.getLsbD_append]
  rcases Nat.eq_zero_or_pos i with rfl | hpos
  · simp
  · simp [hpos, show ¬ i < 1 by omega]

theorem msb_append_zero (x : BitVec k) : (x ++ 0#1).msb = x.msb := by
  rw [BitVec.msb_eq_getLsbD_last, BitVec.msb_eq_getLsbD_last, getLsbD_append_zero]
  rcases Nat.eq_zero_or_pos k with rfl | hpos
  · simp
  · simp [hpos]

/-- A sign-extended field moved up by one bit is the field with a zero behind it,
sign-extended. -/
theorem signExtend_shiftLeft_one (x : BitVec k) (hk : k < n) :
    x.signExtend n <<< 1 = (x ++ 0#1).signExtend n := by
  apply BitVec.eq_of_getLsbD_eq
  intro i hi
  rw [BitVec.getLsbD_shiftLeft, BitVec.getLsbD_signExtend, BitVec.getLsbD_signExtend,
    getLsbD_append_zero, msb_append_zero]
  rcases Nat.eq_zero_or_pos i with rfl | hpos
  · simp
  · by_cases hik : i - 1 < k
    · simp [hi, hpos, hik, show ¬ i < 1 by omega, show i - 1 < n by omega, show i < k + 1 by omega]
    · simp [hi, hik, show ¬ i < 1 by omega, show i - 1 < n by omega,
        show ¬ i < k + 1 by omega]

/-- One place fewer back than up doubles the field. -/
theorem signExtend_of_shifts_double (x : BitVec k) (hk : k < n) :
    ((x.setWidth n) <<< (n - k)).sshiftRight (n - k - 1) = (x ++ 0#1).signExtend n := by
  apply BitVec.eq_of_getLsbD_eq
  intro i hi
  rw [BitVec.getLsbD_sshiftRight, BitVec.getLsbD_signExtend, msb_setWidth_shiftLeft x (by omega),
    BitVec.getLsbD_shiftLeft, BitVec.getLsbD_setWidth, getLsbD_append_zero, msb_append_zero]
  by_cases hik : i < k + 1
  · rcases Nat.eq_zero_or_pos i with rfl | hpos
    · simp [show n - k - 1 < n by omega, show n - k - 1 < n - k by omega, show 0 < n by omega]
    · simp [hi, hik, hpos, show ¬ n ≤ i by omega, show n - k - 1 + i < n by omega,
        show ¬ n - k - 1 + i < n - k by omega, show n - k - 1 + i - (n - k) = i - 1 by omega,
        show i - 1 < n by omega]
  · simp [hi, hik, show ¬ n ≤ i by omega, show ¬ n - k - 1 + i < n by omega]

theorem two_pow_xor {i x : Nat} (h : x < 2 ^ i) : 2 ^ i ^^^ x = 2 ^ i + x := by
  have hjoin : 2 ^ i + x = 2 ^ i ||| x := by
    have hor := Nat.two_pow_add_eq_or_of_lt h 1
    rwa [Nat.mul_one] at hor
  rw [hjoin]
  apply Nat.eq_of_testBit_eq
  intro j
  rw [Nat.testBit_xor, Nat.testBit_or, Nat.testBit_two_pow]
  by_cases hj : i = j
  · rw [← hj, Nat.testBit_lt_two_pow h]
    simp
  · simp [hj]

/-- Flipping the sign bit of a field and taking it away again extends the sign. -/
theorem xor_sub_signBit (x : BitVec k) (hk : k ≤ n) (hpos : 0 < k) :
    (x.setWidth n ^^^ BitVec.ofNat n (2 ^ (k - 1))) - BitVec.ofNat n (2 ^ (k - 1)) =
      x.signExtend n := by
  have hhalf : 2 ^ k = 2 * 2 ^ (k - 1) := by
    rw [← Nat.pow_succ']
    congr 1
    omega
  have hle : 2 ^ k ≤ 2 ^ n := Nat.pow_le_pow_right (by omega) hk
  have hx := x.isLt
  have hsign : (2 ^ (k - 1)) % 2 ^ n = 2 ^ (k - 1) := Nat.mod_eq_of_lt (by omega)
  apply BitVec.eq_of_toNat_eq
  rw [BitVec.toNat_sub, BitVec.toNat_xor, BitVec.toNat_ofNat, hsign, BitVec.toNat_signExtend,
    BitVec.toNat_setWidth_of_le hk, BitVec.msb_eq_decide]
  by_cases hmsb : 2 ^ (k - 1) ≤ x.toNat
  · have hsplit : x.toNat = 2 ^ (k - 1) ^^^ (x.toNat - 2 ^ (k - 1)) := by
      rw [two_pow_xor (by omega)]
      omega
    have hxor : x.toNat ^^^ 2 ^ (k - 1) = x.toNat - 2 ^ (k - 1) := by
      rw [Nat.xor_comm, hsplit, ← Nat.xor_assoc, Nat.xor_self, Nat.zero_xor, ← hsplit]
    rw [hxor, decide_eq_true hmsb, if_pos rfl, Nat.mod_eq_of_lt (by omega)]
    omega
  · have hxor : x.toNat ^^^ 2 ^ (k - 1) = 2 ^ (k - 1) + x.toNat := by
      rw [Nat.xor_comm, two_pow_xor (by omega)]
    have hsum : 2 ^ n - 2 ^ (k - 1) + (2 ^ (k - 1) + x.toNat) = x.toNat + 2 ^ n := by omega
    rw [hxor, decide_eq_false hmsb, if_neg Bool.false_ne_true, hsum, Nat.add_mod_right,
      Nat.mod_eq_of_lt (by omega), Nat.add_zero]

/-- The sign bit decides whether zero and sign extension agree. -/
theorem setWidth_eq_signExtend_iff (x : BitVec k) (hk : k < n) :
    x.setWidth n = x.signExtend n ↔ x.msb = false := by
  constructor
  · intro h
    have hbit := congrArg (fun v => v.getLsbD k) h
    simp only [BitVec.getLsbD_setWidth, BitVec.getLsbD_signExtend, Nat.lt_irrefl, if_false,
      BitVec.getLsbD_of_ge x k (Nat.le_refl k)] at hbit
    simpa [hk] using hbit.symm
  · intro h
    exact (BitVec.signExtend_eq_setWidth_of_msb_false h).symm

/-- The sign bit and the amount decide whether logical and arithmetic shifts
agree. -/
theorem ushiftRight_eq_sshiftRight_iff (x : BitVec n) {s : Nat} (hs : s < n) :
    x >>> s = x.sshiftRight s ↔ x.msb = false ∨ s = 0 := by
  constructor
  · intro h
    rcases Nat.eq_zero_or_pos s with hzero | hpos
    · exact Or.inr hzero
    · left
      have hbit := congrArg (fun v => v.getLsbD (n - 1)) h
      simp only [BitVec.getLsbD_ushiftRight, BitVec.getLsbD_sshiftRight] at hbit
      rw [if_neg (by omega), BitVec.getLsbD_of_ge _ _ (by omega)] at hbit
      simpa [show ¬ n ≤ n - 1 by omega] using hbit.symm
  · rintro (hmsb | rfl)
    · exact (BitVec.sshiftRight_eq_of_msb_false hmsb).symm
    · simp

/-- An or with the zero extension of a field equals the or with its sign
extension exactly when the bits of the extension are already set. -/
theorem or_setWidth_eq_or_signExtend_iff (a : BitVec n) (x : BitVec k) :
    a ||| x.setWidth n = a ||| x.signExtend n ↔
      x.msb = false ∨ ∀ i, k ≤ i → i < n → a.getLsbD i = true := by
  constructor
  · intro h
    cases hmsb : x.msb with
    | false => exact Or.inl rfl
    | true =>
        right
        intro i hki hin
        have hbit := congrArg (fun v => v.getLsbD i) h
        simp only [BitVec.getLsbD_or, BitVec.getLsbD_setWidth, BitVec.getLsbD_signExtend] at hbit
        rw [if_neg (by omega), hmsb, BitVec.getLsbD_of_ge x i hki] at hbit
        simpa [hin] using hbit
  · rintro (hmsb | hset)
    · rw [BitVec.signExtend_eq_setWidth_of_msb_false hmsb]
    · apply BitVec.eq_of_getLsbD_eq
      intro i hin
      by_cases hki : i < k
      · simp [BitVec.getLsbD_signExtend, hki]
      · simp [hset i (by omega) hin]

theorem setWidth_signExtend (x : BitVec k) (hk : k ≤ n) : (x.signExtend n).setWidth k = x := by
  apply BitVec.eq_of_getLsbD_eq
  intro i hi
  rw [BitVec.getLsbD_setWidth, BitVec.getLsbD_signExtend, if_pos hi]
  simp [hi, show i < n by omega]

/-- Shifted left, a word keeps its low bits in front of zeros. -/
theorem shiftLeft_eq_append {s : Nat} (x : BitVec (k + s)) : x <<< s = x.setWidth k ++ 0#s := by
  apply BitVec.eq_of_getLsbD_eq
  intro i hi
  rw [BitVec.getLsbD_shiftLeft, BitVec.getLsbD_append, BitVec.getLsbD_setWidth]
  by_cases his : i < s
  · simp [his]
  · simp [his, hi, show i - s < k by omega]

/-- Clearing the low bit changes nothing exactly when it is clear. -/
theorem and_not_one_eq_iff (x : BitVec (n + 1)) :
    x &&& ~~~1#(n + 1) = x ↔ x.getLsbD 0 = false := by
  constructor
  · intro h
    rw [← h]
    simp
  · intro h
    apply BitVec.eq_of_getLsbD_eq
    intro i hi
    rcases Nat.eq_zero_or_pos i with rfl | hpos
    · rw [h]
      simp
    · simp [hi, show ¬ i = 0 by omega]

/-- A mask of the bits from `k` up rounds a number without bits above the mask down
to a multiple of `2 ^ k`. -/
theorem and_alignMask {x k m : Nat} (h : x < 2 ^ (k + m)) :
    x &&& (2 ^ k * (2 ^ m - 1)) = 2 ^ k * (x / 2 ^ k) := by
  apply Nat.eq_of_testBit_eq
  intro i
  rw [Nat.testBit_and, Nat.testBit_two_pow_mul, Nat.testBit_two_pow_mul,
    Nat.testBit_two_pow_sub_one, Nat.testBit_div_two_pow]
  by_cases hi : i ≥ k
  · rw [Nat.sub_add_cancel hi]
    by_cases hhi : i - k < m
    · simp [hi, hhi]
    · have hzero : x.testBit i = false :=
        Nat.testBit_lt_two_pow (Nat.lt_of_lt_of_le h (Nat.pow_le_pow_right (by decide) (by omega)))
      simp [hzero]
  · simp [hi]

end BitField
end CRiscV
