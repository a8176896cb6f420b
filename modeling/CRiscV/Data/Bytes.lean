/-
Little-endian byte strings.  A string is a function from the index to the byte,
so that a copy of a range of memory is a string as it stands.
-/
import Mathlib.Data.BitVec

namespace CRiscV
namespace Bytes

variable {n : Nat}

/-- Byte `k` of a word, counted from the low end. -/
def byteAt (v : BitVec n) (k : Nat) : BitVec 8 := v.extractLsb' (8 * k) 8

/-- The word whose low bytes are the first `count` bytes of `f`. -/
def ofBytes (n : Nat) : Nat → (Nat → BitVec 8) → BitVec n
  | 0, _ => 0
  | count + 1, f => ofBytes n count f ||| (f count).setWidth n <<< (8 * count)

theorem getLsbD_byteAt (v : BitVec n) (k i : Nat) :
    (byteAt v k).getLsbD i = (decide (i < 8) && v.getLsbD (8 * k + i)) := by
  rw [byteAt, BitVec.getLsbD_extractLsb']

/-- Masking and truncating a word to its low bytes keeps them. -/
theorem byteAt_truncated {m : Nat} (v mask : BitVec n) {k : Nat}
    (hmask : mask.setWidth m = BitVec.allOnes m) (hk : 8 * k + 8 ≤ m) :
    byteAt ((v &&& mask).setWidth m) k = byteAt v k := by
  rw [BitVec.setWidth_and, hmask, BitVec.and_allOnes]
  apply BitVec.eq_of_getLsbD_eq
  intro i hi
  rw [getLsbD_byteAt, getLsbD_byteAt, BitVec.getLsbD_setWidth]
  simp [show 8 * k + i < m by omega]

theorem getLsbD_ofBytes (count : Nat) (f : Nat → BitVec 8) (i : Nat) :
    (ofBytes n count f).getLsbD i =
      (decide (i < n) && decide (i < 8 * count) && (f (i / 8)).getLsbD (i % 8)) := by
  induction count with
  | zero => simp [ofBytes]
  | succ count ih =>
      rw [ofBytes, BitVec.getLsbD_or, ih, BitVec.getLsbD_shiftLeft, BitVec.getLsbD_setWidth]
      by_cases hn : i < n
      · by_cases hlow : i < 8 * count
        · simp [hn, hlow, show i < 8 * (count + 1) by omega]
        · by_cases htop : i < 8 * (count + 1)
          · have hdiv : i / 8 = count := by omega
            have hmod : i - 8 * count = i % 8 := by omega
            simp [hn, hlow, htop, hdiv, hmod, show i % 8 < n by omega]
          · rw [BitVec.getLsbD_of_ge (f count) (i - 8 * count) (by omega)]
            simp [hlow, htop]
      · simp [hn]

theorem ofBytes_congr {count : Nat} {f g : Nat → BitVec 8} (h : ∀ i < count, f i = g i) :
    ofBytes n count f = ofBytes n count g := by
  induction count with
  | zero => rfl
  | succ count ih =>
      rw [ofBytes, ofBytes, ih (fun i hi => h i (by omega)), h count (Nat.lt_succ_self count)]

/-- Bytes of a word put together again give its low bytes. -/
theorem ofBytes_byteAt {m : Nat} (v : BitVec m) (count : Nat) :
    ofBytes n count (byteAt v) = (v.setWidth (8 * count)).setWidth n := by
  apply BitVec.eq_of_getLsbD_eq
  intro i hi
  rw [getLsbD_ofBytes, getLsbD_byteAt, BitVec.getLsbD_setWidth, BitVec.getLsbD_setWidth,
    show 8 * (i / 8) + i % 8 = i by omega]
  simp [hi, show i % 8 < 8 by omega]

/-- A byte of a word that was put together. -/
theorem byteAt_ofBytes {count k : Nat} (f : Nat → BitVec 8) (hk : k < count) (hn : 8 * k + 8 ≤ n) :
    byteAt (ofBytes n count f) k = f k := by
  apply BitVec.eq_of_getLsbD_eq
  intro i hi
  rw [getLsbD_byteAt, getLsbD_ofBytes, show (8 * k + i) / 8 = k by omega,
    show (8 * k + i) % 8 = i by omega]
  simp [hi, show 8 * k + i < n by omega, show 8 * k + i < 8 * count by omega]

/-- Bytes above `count` that are zero may be left out. -/
theorem ofBytes_of_zero_above {count total : Nat} {f : Nat → BitVec 8} (hle : count ≤ total)
    (hzero : ∀ i, count ≤ i → i < total → f i = 0) :
    ofBytes n total f = ofBytes n count f := by
  apply BitVec.eq_of_getLsbD_eq
  intro i hi
  rw [getLsbD_ofBytes, getLsbD_ofBytes]
  by_cases hlow : i < 8 * count
  · simp [hlow, show i < 8 * total by omega]
  · by_cases htop : i < 8 * total
    · simp [hlow, hzero (i / 8) (by omega) (by omega)]
    · simp [hlow, htop]

theorem ofBytes_one (f : Nat → BitVec 8) : ofBytes n 1 f = (f 0).setWidth n := by
  simp [ofBytes]

theorem ofBytes_two (f : Nat → BitVec 8) : ofBytes n 2 f = (f 1 ++ f 0).setWidth n := by
  apply BitVec.eq_of_getLsbD_eq
  intro i hi
  rw [getLsbD_ofBytes, BitVec.getLsbD_setWidth, BitVec.getLsbD_append]
  by_cases h0 : i < 8
  · simp [hi, h0, show i / 8 = 0 by omega, show i % 8 = i by omega, show i < 16 by omega]
  · by_cases h1 : i < 16
    · simp [hi, h0, h1, show i / 8 = 1 by omega, show i % 8 = i - 8 by omega]
    · simp [h0, h1, BitVec.getLsbD_of_ge (f 1) (i - 8) (by omega)]

theorem ofBytes_four (f : Nat → BitVec 8) :
    ofBytes 32 4 f = f 3 ++ f 2 ++ f 1 ++ f 0 := by
  apply BitVec.eq_of_getLsbD_eq
  intro i hi
  simp only [getLsbD_ofBytes, BitVec.getLsbD_append]
  by_cases h0 : i < 8
  · simp [h0, hi, show i / 8 = 0 by omega, show i % 8 = i by omega]
  · by_cases h1 : i < 16
    · simp [h0, hi, show i / 8 = 1 by omega, show i % 8 = i - 8 by omega,
        show i - 8 < 8 by omega]
    · by_cases h2 : i < 24
      · simp [h0, hi, show i / 8 = 2 by omega, show i % 8 = i - 8 - 8 by omega,
          show ¬ i - 8 < 8 by omega, show i - 8 - 8 < 8 by omega]
      · simp [h0, hi, show i / 8 = 3 by omega, show i % 8 = i - 8 - 8 - 8 by omega,
          show ¬ i - 8 < 8 by omega, show ¬ i - 8 - 8 < 8 by omega]

end Bytes
end CRiscV
