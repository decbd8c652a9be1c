import Mathlib.Data.Nat.Bitwise
import Mathlib.Data.Nat.Cast.Basic

/-!
# Blocks — numbers that agree in their leading bits

`floorTo k n` clears the last `k` bits of `n`.  For a number of `w` bits that is the conjunction
with a mask of leading ones (`and_mask`), so that two such numbers agree under the mask if and only
if the bits before the last `k` are the same (`and_mask_eq_iff`).
-/

namespace GateControl
namespace Library
namespace Blocks

def floorTo (k n : Nat) : Nat := n / 2 ^ k * 2 ^ k

/-- Leading ones: the number of `w` bits whose last `k` are zero. -/
def mask (w k : Nat) : Nat := 2 ^ w - 2 ^ k

theorem testBit_floorTo (k n i : Nat) :
    (floorTo k n).testBit i = (decide (k ≤ i) && n.testBit i) := by
  rw [floorTo, Nat.testBit_mul_two_pow]
  by_cases hi : k ≤ i
  · rw [Nat.testBit_div_two_pow, Nat.sub_add_cancel hi]
  · simp [hi]

theorem mask_eq {w k : Nat} (hk : k ≤ w) : mask w k = (2 ^ (w - k) - 1) * 2 ^ k := by
  rw [mask, Nat.sub_mul, ← Nat.pow_add, Nat.sub_add_cancel hk, Nat.one_mul]

theorem testBit_mask {w k : Nat} (hk : k ≤ w) (i : Nat) :
    (mask w k).testBit i = (decide (k ≤ i) && decide (i < w)) := by
  rw [mask_eq hk, Nat.testBit_mul_two_pow, Nat.testBit_two_pow_sub_one]
  by_cases hi : k ≤ i
  · have hiff : i - k < w - k ↔ i < w := Nat.sub_lt_sub_iff_right hi
    simp [hi, hiff]
  · simp [hi]

theorem and_mask {w k n : Nat} (hk : k ≤ w) (hn : n < 2 ^ w) : n &&& mask w k = floorTo k n := by
  apply Nat.eq_of_testBit_eq
  intro i
  rw [Nat.testBit_and, testBit_mask hk, testBit_floorTo]
  -- below the width both keep the bits from `k` on
  by_cases hi : i < w
  · simp [hi, Bool.and_comm]
  · -- beyond the width there are no bits at all
    have hzero : n.testBit i = false :=
      Nat.testBit_lt_two_pow (hn.trans_le (Nat.pow_le_pow_right Nat.two_pos (Nat.not_lt.1 hi)))
    simp [hzero]

theorem floorTo_eq_iff {k m n : Nat} : floorTo k m = floorTo k n ↔ m / 2 ^ k = n / 2 ^ k :=
  Nat.mul_left_inj (Nat.two_pow_pos k).ne'

theorem and_mask_eq_iff {w k m n : Nat} (hk : k ≤ w) (hm : m < 2 ^ w) (hn : n < 2 ^ w) :
    m &&& mask w k = n &&& mask w k ↔ m / 2 ^ k = n / 2 ^ k := by
  rw [and_mask hk hm, and_mask hk hn, floorTo_eq_iff]

theorem floorTo_div (k n : Nat) : floorTo k n / 2 ^ k = n / 2 ^ k :=
  Nat.mul_div_cancel _ (Nat.two_pow_pos k)

theorem pow_dvd_floorTo {j k : Nat} (hjk : j ≤ k) (n : Nat) : 2 ^ j ∣ floorTo k n :=
  (Nat.pow_dvd_pow 2 hjk).trans (Nat.dvd_mul_left ..)

/-- A block that begins below a power of two ends below it. -/
theorem add_pow_le {j k n : Nat} (hjk : j ≤ k) (hdvd : 2 ^ j ∣ n) (hn : n < 2 ^ k) :
    n + 2 ^ j ≤ 2 ^ k := by
  obtain ⟨m, rfl⟩ := hdvd
  have hpow : 2 ^ k = 2 ^ j * 2 ^ (k - j) := by rw [← Nat.pow_add, Nat.add_sub_cancel' hjk]
  rw [hpow] at hn ⊢
  have hm : m < 2 ^ (k - j) := Nat.lt_of_mul_lt_mul_left hn
  calc
    2 ^ j * m + 2 ^ j = 2 ^ j * (m + 1) := (Nat.mul_succ ..).symm
    _ ≤ 2 ^ j * 2 ^ (k - j) := Nat.mul_le_mul_left _ hm

/-- Numbers of one block differ by less than its size. -/
theorem div_eq_iff {k m n : Nat} (hdvd : 2 ^ k ∣ n) :
    m / 2 ^ k = n / 2 ^ k ↔ n ≤ m ∧ m < n + 2 ^ k := by
  obtain ⟨c, rfl⟩ := hdvd
  rw [Nat.mul_div_cancel_left _ (Nat.two_pow_pos k), Nat.div_eq_iff (Nat.two_pow_pos k),
    Nat.mul_comm c]
  have hpos := Nat.two_pow_pos k
  omega

/-- Numbers that agree before the last `k` bits agree before more of them. -/
theorem div_eq_of_div_eq {j k m n : Nat} (hjk : j ≤ k) (h : m / 2 ^ j = n / 2 ^ j) :
    m / 2 ^ k = n / 2 ^ k := by
  -- clear `j` bits first, and then the others
  have hsplit : ∀ x : Nat, x / 2 ^ k = x / 2 ^ j / 2 ^ (k - j) := by
    intro x
    rw [Nat.div_div_eq_div_mul, ← Nat.pow_add, Nat.add_sub_cancel' hjk]
  rw [hsplit m, hsplit n, h]

end Blocks
end Library
end GateControl
