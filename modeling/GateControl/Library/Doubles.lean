import Mathlib.Data.Int.Log
import Mathlib.Data.Rat.Floor
import Mathlib.Tactic.Linarith
import Mathlib.Tactic.Positivity
import Mathlib.Tactic.Ring

/-!
# Doubles — binary64 numbers and their decimals

A finite double is a rational of 53 binary digits.  `nearest` rounds a number that is not negative
to the doubles, ties to even, and `shortest` gives the decimal of least length that is rounded to a
given double, the nearest one where there are two.  A double is its own nearest double, and the one
nearest to its shortest decimal.
-/

namespace GateControl
namespace Library

/-- The values of finite doubles. -/
def IsDouble (q : ℚ) : Prop :=
  ∃ m e : ℤ, |m| < 2 ^ 53 ∧ -1074 ≤ e ∧ e ≤ 971 ∧ q = m * 2 ^ e

theorem IsDouble.neg {q : ℚ} (h : IsDouble q) : IsDouble (-q) := by
  rcases h with ⟨m, e, hm, hlow, hhigh, rfl⟩
  exact ⟨-m, e, by rwa [abs_neg], hlow, hhigh, by push_cast; ring⟩

theorem isDouble_zero : IsDouble 0 := ⟨0, 0, by norm_num, by norm_num, by norm_num, by simp⟩

/-- A finite double; its two zeros are one value. -/
structure Double where
  val : ℚ
  isDouble : IsDouble val
  deriving DecidableEq

namespace Double

def zero : Double := ⟨0, isDouble_zero⟩

def neg (d : Double) : Double := ⟨-d.val, d.isDouble.neg⟩

@[simp] theorem val_neg (d : Double) : d.neg.val = -d.val := rfl

@[simp] theorem neg_neg (d : Double) : d.neg.neg = d := by
  cases d
  simp [neg]

end Double

theorem two_zpow_pos (e : ℤ) : (0 : ℚ) < 2 ^ e := zpow_pos (by norm_num) e

/-! ## Rounding to whole numbers -/

/-- The nearest whole number, the even one of two. -/
def roundEven (x : ℚ) : ℤ :=
  if x - ⌊x⌋ < 1 / 2 then ⌊x⌋
  else if 1 / 2 < x - ⌊x⌋ then ⌊x⌋ + 1
  else if ⌊x⌋ % 2 = 0 then ⌊x⌋ else ⌊x⌋ + 1

@[simp] theorem roundEven_intCast (n : ℤ) : roundEven n = n := by
  simp [roundEven]

theorem floor_le_roundEven (x : ℚ) : ⌊x⌋ ≤ roundEven x := by
  unfold roundEven
  split_ifs <;> omega

theorem roundEven_le_floor_add_one (x : ℚ) : roundEven x ≤ ⌊x⌋ + 1 := by
  unfold roundEven
  split_ifs <;> omega

theorem le_roundEven {n : ℤ} {x : ℚ} (h : (n : ℚ) ≤ x) : n ≤ roundEven x :=
  (Int.le_floor.2 h).trans (floor_le_roundEven x)

theorem roundEven_le {n : ℤ} {x : ℚ} (h : x ≤ n) : roundEven x ≤ n := by
  rcases h.eq_or_lt with heq | hlt
  · rw [heq, roundEven_intCast]
  · -- below `n` the next whole number is at most `n`
    have hfloor : ⌊x⌋ < n := Int.floor_lt.2 hlt
    exact (roundEven_le_floor_add_one x).trans hfloor

/-! ## Rounding to doubles -/

/-- The exponent of the last binary digit. -/
def lastPlace (q : ℚ) : ℤ := max (-1074) (Int.log 2 q - 52)

theorem lastPlace_ge (q : ℚ) : -1074 ≤ lastPlace q := le_max_left _ _

/-- The nearest of the numbers of 53 binary digits, where the exponent has no upper bound. -/
def nearest (q : ℚ) : ℚ := roundEven (q / 2 ^ lastPlace q) * 2 ^ lastPlace q

/-- A multiple of the last place is not rounded. -/
theorem nearest_eq_self {q : ℚ} {n : ℤ} (h : q = n * 2 ^ lastPlace q) : nearest q = q := by
  have hdiv : q / 2 ^ lastPlace q = n := by
    rw [div_eq_iff (two_zpow_pos _).ne']
    exact h
  rw [nearest, hdiv, roundEven_intCast]
  exact h.symm

/-- A number below `2 ^ (53 + e)` has no place below `e`. -/
theorem lastPlace_le {q : ℚ} {e : ℤ} (hq : 0 < q) (he : -1074 ≤ e) (h : q < 2 ^ (53 + e)) :
    lastPlace q ≤ e := by
  have hlog : Int.log 2 q < 53 + e := by
    rw [← Int.lt_zpow_iff_log_lt (by norm_num) hq]
    exact_mod_cast h
  exact max_le he (by linarith)

theorem Double.nearest_val {d : Double} (h : 0 ≤ d.val) : nearest d.val = d.val := by
  rcases d with ⟨q, m, e, hm, hlow, hhigh, rfl⟩
  rcases h.eq_or_lt with hzero | hpos
  · apply nearest_eq_self (n := 0)
    simpa using hzero.symm
  · -- the exponent of a double is never below its last place
    have hbound : (m : ℚ) * 2 ^ e < 2 ^ (53 + e) := by
      rw [zpow_add₀ (by norm_num)]
      apply mul_lt_mul_of_pos_right _ (two_zpow_pos e)
      exact_mod_cast (le_abs_self m).trans_lt hm
    have hle := lastPlace_le hpos hlow hbound
    have hsplit : ((2 : ℚ) ^ e) =
        2 ^ (e - lastPlace (m * 2 ^ e)).toNat * 2 ^ lastPlace (m * 2 ^ e) := by
      rw [← zpow_natCast, ← zpow_add₀ (by norm_num), Int.toNat_of_nonneg (by linarith)]
      congr 1
      ring
    apply nearest_eq_self (n := m * 2 ^ (e - lastPlace (m * 2 ^ e)).toNat)
    push_cast
    rw [mul_assoc, ← hsplit]

/-- A number has at most 53 digits above its last place. -/
theorem div_lastPlace_le (q : ℚ) : q / 2 ^ lastPlace q ≤ (2 ^ 53 : ℤ) := by
  have hlog : q < (2 : ℚ) ^ (Int.log 2 q + 1) := by
    exact_mod_cast Int.lt_zpow_succ_log_self (b := 2) (by norm_num) q
  have hplace : Int.log 2 q - 52 ≤ lastPlace q := le_max_right _ _
  rw [div_le_iff₀ (two_zpow_pos _)]
  calc q ≤ 2 ^ (Int.log 2 q + 1) := hlog.le
    _ ≤ 2 ^ (53 + lastPlace q) := zpow_le_zpow_right₀ (by norm_num) (by linarith)
    _ = (2 ^ 53 : ℤ) * 2 ^ lastPlace q := by rw [zpow_add₀ (by norm_num)]; norm_num

/-- Above the least exponent it has 53 of them. -/
theorem le_div_lastPlace {q : ℚ} (hq : 0 < q) (h : -1074 < lastPlace q) :
    (2 ^ 52 : ℤ) ≤ q / 2 ^ lastPlace q := by
  have hplace : Int.log 2 q = 52 + lastPlace q := by
    rcases max_choice (-1074) (Int.log 2 q - 52) with hmax | hmax
    · exact absurd hmax h.ne'
    · change lastPlace q = _ at hmax
      linarith
  have hlog : (2 : ℚ) ^ Int.log 2 q ≤ q := by
    exact_mod_cast Int.zpow_log_le_self (b := 2) (by norm_num) hq
  rw [le_div_iff₀ (two_zpow_pos _)]
  calc ((2 ^ 52 : ℤ) : ℚ) * 2 ^ lastPlace q = 2 ^ (52 + lastPlace q) := by
        rw [zpow_add₀ (by norm_num)]; norm_num
    _ ≤ q := by rwa [← hplace]

/-- A rounded number in range is a double. -/
theorem isDouble_nearest {q : ℚ} (hq : 0 < q) (h : nearest q < 2 ^ (1024 : ℤ)) :
    IsDouble (nearest q) := by
  have hm53 : roundEven (q / 2 ^ lastPlace q) ≤ 2 ^ 53 := roundEven_le (div_lastPlace_le q)
  have hm0 : 0 ≤ roundEven (q / 2 ^ lastPlace q) :=
    le_roundEven (by simpa using div_nonneg hq.le (two_zpow_pos _).le)
  have hlow := lastPlace_ge q
  -- digits at a larger exponent would put the number out of range
  have hrange : ∀ n : ℕ, (2 ^ n : ℤ) ≤ roundEven (q / 2 ^ lastPlace q) →
      n + lastPlace q < 1024 := by
    intro n hn
    have hlt : (2 : ℚ) ^ (n + lastPlace q) < 2 ^ (1024 : ℤ) := by
      calc (2 : ℚ) ^ (n + lastPlace q) = (2 ^ n : ℤ) * 2 ^ lastPlace q := by
            rw [zpow_add₀ (by norm_num), zpow_natCast]; norm_num
        _ ≤ nearest q := mul_le_mul_of_nonneg_right (by exact_mod_cast hn) (two_zpow_pos _).le
        _ < 2 ^ (1024 : ℤ) := h
    exact (zpow_lt_zpow_iff_right₀ (by norm_num)).1 hlt
  rcases hm53.eq_or_lt with hcarry | hlt
  · -- the carry leaves a power of two, which has a shorter form
    have hexp := hrange 53 hcarry.ge
    refine ⟨2 ^ 52, lastPlace q + 1, by norm_num, by linarith, by push_cast at hexp; linarith, ?_⟩
    rw [nearest, hcarry, zpow_add₀ (by norm_num)]
    push_cast
    ring
  · refine ⟨_, _, by rwa [abs_of_nonneg hm0], hlow, ?_, rfl⟩
    by_contra hgt
    have hexp := hrange 52 (le_roundEven (le_div_lastPlace hq (by linarith)))
    push_cast at hexp
    linarith

/-- The double nearest to a number that is not negative; nothing where it is out of range. -/
def toDouble? (q : ℚ) : Option Double :=
  if h : 0 < q ∧ nearest q < 2 ^ (1024 : ℤ) then some ⟨nearest q, isDouble_nearest h.1 h.2⟩
  else if q ≤ 0 then some Double.zero else none

theorem Double.val_lt (d : Double) : d.val < 2 ^ (1024 : ℤ) := by
  rcases d with ⟨q, m, e, hm, hlow, hhigh, rfl⟩
  have hm' : (m : ℚ) < 2 ^ 53 := by exact_mod_cast (le_abs_self m).trans_lt hm
  calc (m : ℚ) * 2 ^ e < 2 ^ 53 * 2 ^ e := mul_lt_mul_of_pos_right hm' (two_zpow_pos e)
    _ = 2 ^ (53 + e) := by rw [zpow_add₀ (by norm_num)]; norm_num
    _ ≤ 2 ^ (1024 : ℤ) := zpow_le_zpow_right₀ (by norm_num) (by linarith)

theorem toDouble?_of_nearest {q : ℚ} {d : Double} (hq : 0 < q) (h : nearest q = d.val) :
    toDouble? q = some d := by
  rw [toDouble?, dif_pos ⟨hq, h ▸ d.val_lt⟩]
  cases d
  simp only [Option.some.injEq, Double.mk.injEq]
  exact h

/-! ## The shortest decimal -/

/-- The number of digits before the decimal point; negative where zeros follow the point. -/
def pointPlace (q : ℚ) : ℤ := Int.log 10 q + 1

/-- A number whose last `k` digits before the point are the first ones of `q`. -/
def leading (q : ℚ) (k : ℕ) : ℚ := q * 10 ^ ((k : ℤ) - pointPlace q)

/-- The two whole numbers beside the first `k` digits, the nearer one first. -/
def candidates (q : ℚ) (k : ℕ) : List ℕ :=
  [(roundEven (leading q k)).toNat, (2 * ⌊leading q k⌋ + 1 - roundEven (leading q k)).toNat]

def decimalValue (d : ℕ × ℤ) : ℚ := d.1 * 10 ^ d.2

/-- The digits and the place of the last one; a carry into a further digit leaves a power of ten. -/
def placed (q : ℚ) (k s : ℕ) : ℕ × ℤ :=
  if s = 10 ^ k then (10 ^ (k - 1), pointPlace q - k + 1) else (s, pointPlace q - k)

/-- A decimal of `k` digits that is rounded to `q`. -/
def digitsOf? (q : ℚ) (k : ℕ) : Option (ℕ × ℤ) :=
  ((candidates q k).map (placed q k)).find? fun d => nearest (decimalValue d) = q

/-- The decimal of least length that is rounded to `q`. -/
def shortest (q : ℚ) : ℕ × ℤ :=
  ((List.range' 1 (1074 + (pointPlace q).natAbs)).findSome? (digitsOf? q)).getD (0, 0)

theorem decimalValue_placed (q : ℚ) {k : ℕ} (hk : 0 < k) (s : ℕ) :
    decimalValue (placed q k s) = s * 10 ^ (pointPlace q - k) := by
  unfold placed
  split_ifs with hs
  · -- one digit less, and one place up
    rcases Nat.exists_eq_succ_of_ne_zero hk.ne' with ⟨j, rfl⟩
    rw [hs, decimalValue, zpow_add₀ (by norm_num), Nat.succ_sub_one, pow_succ]
    push_cast
    ring
  · rfl

/-- All digits of a double together are a whole number. -/
theorem leading_eq_intCast {d : Double} {k : ℕ} (hk : 1074 ≤ (k : ℤ) - pointPlace d.val) :
    ∃ n : ℤ, leading d.val k = n := by
  rcases d with ⟨q, m, e, hm, hlow, hhigh, rfl⟩
  set j := (k : ℤ) - pointPlace (m * 2 ^ e) with hj
  -- `j` factors of two make up for the negative exponent
  refine ⟨m * 2 ^ (e + j).toNat * 5 ^ j.toNat, ?_⟩
  have htwo : (2 : ℚ) ^ (e + j).toNat = 2 ^ e * 2 ^ j := by
    rw [← zpow_natCast, Int.toNat_of_nonneg (by linarith), zpow_add₀ (by norm_num)]
  have hfive : (5 : ℚ) ^ j.toNat = 5 ^ j := by
    rw [← zpow_natCast, Int.toNat_of_nonneg (by linarith)]
  have hten : (10 : ℚ) ^ j = 2 ^ j * 5 ^ j := by
    rw [← mul_zpow]
    norm_num
  push_cast
  rw [htwo, hfive, leading, hten]
  ring

/-- The exact decimal is among those that are tried. -/
theorem isSome_digitsOf? {d : Double} (hpos : 0 < d.val) {k : ℕ} (hk : 0 < k)
    (hexact : 1074 ≤ (k : ℤ) - pointPlace d.val) : (digitsOf? d.val k).isSome := by
  rcases leading_eq_intCast hexact with ⟨n, hn⟩
  have hn0 : 0 ≤ n := by
    have hlead : 0 ≤ leading d.val k := mul_nonneg hpos.le (zpow_pos (by norm_num) _).le
    rw [hn] at hlead
    exact_mod_cast hlead
  have hvalue : decimalValue (placed d.val k n.toNat) = d.val := by
    have hcast : ((n.toNat : ℕ) : ℚ) = n := by exact_mod_cast Int.toNat_of_nonneg hn0
    calc decimalValue (placed d.val k n.toNat)
        = leading d.val k * 10 ^ (pointPlace d.val - k) := by
          rw [decimalValue_placed _ hk, hcast, ← hn]
      _ = d.val * (10 ^ ((k : ℤ) - pointPlace d.val) * 10 ^ (pointPlace d.val - k)) := by
          rw [leading, mul_assoc]
      _ = d.val := by
          rw [← zpow_add₀ (by norm_num)]
          simp
  have hfound : nearest (decimalValue (placed d.val k n.toNat)) = d.val := by
    rw [hvalue, Double.nearest_val hpos.le]
  simp [digitsOf?, candidates, hn, hfound]

/-- The shortest decimal of a double is rounded to it. -/
theorem nearest_shortest {d : Double} (hpos : 0 < d.val) :
    nearest (decimalValue (shortest d.val)) = d.val := by
  have hsome : ((List.range' 1 (1074 + (pointPlace d.val).natAbs)).findSome?
      (digitsOf? d.val)).isSome := by
    rw [List.findSome?_isSome_iff]
    refine ⟨1074 + (pointPlace d.val).natAbs, ?_, isSome_digitsOf? hpos (by omega) (by omega)⟩
    rw [List.mem_range'_1]
    omega
  rcases Option.isSome_iff_exists.1 hsome with ⟨r, hr⟩
  rcases List.exists_of_findSome?_eq_some hr with ⟨k, -, hk⟩
  have hread := List.find?_some hk
  rw [shortest, hr, Option.getD_some]
  exact of_decide_eq_true hread

theorem shortest_pos {d : Double} (hpos : 0 < d.val) : 0 < (shortest d.val).1 := by
  rw [Nat.pos_iff_ne_zero]
  intro hzero
  -- zero is rounded to zero
  have hread := nearest_shortest hpos
  rw [decimalValue, hzero, Nat.cast_zero, zero_mul, nearest, zero_div] at hread
  have hround : roundEven 0 = 0 := by simpa using roundEven_intCast 0
  rw [hround, Int.cast_zero, zero_mul] at hread
  exact hpos.ne hread

end Library
end GateControl
