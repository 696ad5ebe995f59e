import Mathlib.Data.Int.Log
import Mathlib.Data.Rat.Floor
import Mathlib.Tactic.FieldSimp
import Mathlib.Tactic.Linarith
import Mathlib.Tactic.Positivity
import Mathlib.Tactic.Ring

/-!
# Binary floating point

A number is rounded to `p` binary digits: to the nearest multiple of the weight of
its last digit (`ulp`), and halfway between two of them to the even one. Exponents
have no bounds, so nothing overflows and nothing is subnormal.

Results:

* `round_mono`      — rounding is monotone;
* `round_of_digits` — a number that has no more digits stays as it is, and a whole
  number up to `2 ^ p` has not (`round_intCast`);
* `round_round`     — so rounding twice is rounding once;
* `round_sub_one`   — taking one away loses nothing below `2 ^ p`;
* `abs_round_sub_le` — the error is at most half of the last digit.
-/

namespace Rounding

variable {K : Type*} [Field K] [LinearOrder K] [FloorRing K]

-- ---------------------------------------------------------------------------
-- To the nearest whole number
-- ---------------------------------------------------------------------------

/-- The nearest whole number, and of two that are as near the even one. -/
def nearestEven (x : K) : ℤ :=
  if Int.fract x < 1 / 2 then ⌊x⌋
  else if 1 / 2 < Int.fract x then ⌊x⌋ + 1
  else if Even ⌊x⌋ then ⌊x⌋
  else ⌊x⌋ + 1

theorem floor_le_nearestEven (x : K) : ⌊x⌋ ≤ nearestEven x := by
  unfold nearestEven
  split_ifs <;> omega

theorem nearestEven_le_floor_add_one (x : K) : nearestEven x ≤ ⌊x⌋ + 1 := by
  unfold nearestEven
  split_ifs <;> omega

variable [IsStrictOrderedRing K]

@[simp] theorem nearestEven_intCast (n : ℤ) : nearestEven (n : K) = n := by
  simp [nearestEven]

/-- Rounding to a whole number keeps the order. -/
theorem nearestEven_mono {x y : K} (hxy : x ≤ y) : nearestEven x ≤ nearestEven y := by
  rcases (Int.floor_le_floor hxy).lt_or_eq with hBelow | hSame
  · exact (nearestEven_le_floor_add_one x).trans (hBelow.trans_le (floor_le_nearestEven y))
  · -- between the same two whole numbers the fraction decides
    have hFract : Int.fract x ≤ Int.fract y := by
      rw [Int.fract, Int.fract, hSame]
      exact sub_le_sub_right hxy _
    unfold nearestEven
    rw [hSame]
    by_cases hDown : Int.fract y < 1 / 2
    · rw [if_pos (hFract.trans_lt hDown), if_pos hDown]
    · rw [if_neg hDown]
      by_cases hUp : 1 / 2 < Int.fract y
      · rw [if_pos hUp]
        split_ifs <;> omega
      · rw [if_neg hUp, if_neg fun hUp' => hUp (lt_of_lt_of_le hUp' hFract)]
        split_ifs <;> omega

/-- Rounding does not go past a whole number. -/
theorem le_nearestEven {n : ℤ} {x : K} (h : (n : K) ≤ x) : n ≤ nearestEven x := by
  simpa only [nearestEven_intCast] using nearestEven_mono h

theorem nearestEven_le {n : ℤ} {x : K} (h : x ≤ n) : nearestEven x ≤ n := by
  simpa only [nearestEven_intCast] using nearestEven_mono h

/-- No whole number is more than a half away. -/
theorem abs_nearestEven_sub_le (x : K) : |(nearestEven x : K) - x| ≤ 1 / 2 := by
  have hSplit := Int.floor_add_fract x
  have hNonneg := Int.fract_nonneg x
  have hLess := Int.fract_lt_one x
  unfold nearestEven
  rw [abs_le]
  split_ifs <;> push_cast <;> constructor <;> linarith

/-- It is the same on both sides of zero. -/
theorem nearestEven_neg (x : K) : nearestEven (-x) = -nearestEven x := by
  by_cases hWhole : Int.fract x = 0
  · obtain ⟨n, rfl⟩ : ∃ n : ℤ, (n : K) = x := ⟨⌊x⌋, by
      rw [← Int.floor_add_fract x, hWhole, add_zero, Int.floor_intCast]⟩
    rw [← Int.cast_neg, nearestEven_intCast, nearestEven_intCast]
  · -- the floor of the negative changes parity, and the two halves change places
    have hSplit := Int.floor_add_fract x
    have hPositive : 0 < Int.fract x := lt_of_le_of_ne (Int.fract_nonneg x) (Ne.symm hWhole)
    have hLess := Int.fract_lt_one x
    have hFloor : ⌊-x⌋ = -⌊x⌋ - 1 := by
      rw [Int.floor_eq_iff]
      push_cast
      constructor <;> linarith
    have hParity : Even (-⌊x⌋ - 1) ↔ ¬ Even ⌊x⌋ := by
      rw [Int.even_sub_one, even_neg]
    unfold nearestEven
    rw [hFloor, Int.fract_neg hWhole]
    simp only [hParity]
    split_ifs <;> first | omega | exfalso; linarith

-- ---------------------------------------------------------------------------
-- To a number of digits
-- ---------------------------------------------------------------------------

/-- The weight of the last of `p` digits. -/
def ulp (p : ℕ) (x : K) : K := 2 ^ (Int.log 2 |x| + 1 - p)

/-- The nearest number of `p` digits. -/
def round (p : ℕ) (x : K) : K := nearestEven (x / ulp p x) * ulp p x

omit [IsStrictOrderedRing K] in
theorem ulp_neg (p : ℕ) (x : K) : ulp p (-x) = ulp p x := by rw [ulp, ulp, abs_neg]

theorem ulp_pos (p : ℕ) (x : K) : 0 < ulp p x := zpow_pos two_pos _

@[simp] theorem round_zero (p : ℕ) : round p (0 : K) = 0 := by
  have hNone : nearestEven (0 : K) = 0 := by exact_mod_cast nearestEven_intCast (K := K) 0
  rw [round, zero_div, hNone, Int.cast_zero, zero_mul]

theorem round_neg (p : ℕ) (x : K) : round p (-x) = -round p x := by
  rw [round, round, ulp_neg, neg_div, nearestEven_neg, Int.cast_neg, neg_mul]

/-- Scaled to its last digit, a number has `p` digits before the point. -/
theorem scaled_bounds (p : ℕ) {x : K} (hx : 0 < x) :
    (2 : K) ^ ((p : ℤ) - 1) ≤ x / ulp p x ∧ x / ulp p x < 2 ^ (p : ℤ) := by
  have hLow : (2 : K) ^ Int.log 2 x ≤ x := by
    exact_mod_cast Int.zpow_log_le_self (b := 2) one_lt_two hx
  have hHigh : x < (2 : K) ^ (Int.log 2 x + 1) := by
    exact_mod_cast Int.lt_zpow_succ_log_self (b := 2) one_lt_two x
  rw [le_div_iff₀ (ulp_pos p x), div_lt_iff₀ (ulp_pos p x), ulp, abs_of_pos hx,
    ← zpow_add₀ two_ne_zero, ← zpow_add₀ two_ne_zero]
  have hExpLow : (p : ℤ) - 1 + (Int.log 2 x + 1 - p) = Int.log 2 x := by ring
  have hExpHigh : (p : ℤ) + (Int.log 2 x + 1 - p) = Int.log 2 x + 1 := by ring
  rw [hExpLow, hExpHigh]
  exact ⟨hLow, hHigh⟩

/-- No number has more digits before the point than that. -/
theorem abs_scaled_le (p : ℕ) (x : K) : |x / ulp p x| ≤ 2 ^ (p : ℤ) := by
  rcases lt_trichotomy x 0 with hNeg | rfl | hPos
  · have hBounds := (scaled_bounds p (neg_pos.mpr hNeg)).2
    rw [ulp_neg, neg_div] at hBounds
    rw [abs_of_neg (div_neg_of_neg_of_pos hNeg (ulp_pos p x))]
    exact hBounds.le
  · rw [zero_div, abs_zero]
    exact (zpow_pos two_pos _).le
  · rw [abs_of_pos (div_pos hPos (ulp_pos p x))]
    exact (scaled_bounds p hPos).2.le

/-- In units of the last digit a number has no more than `p` digits. -/
theorem abs_nearestEven_scaled_le (p : ℕ) (x : K) : |nearestEven (x / ulp p x)| ≤ 2 ^ p := by
  have hWhole : (2 : K) ^ (p : ℤ) = ((2 ^ p : ℤ) : K) := by push_cast; exact zpow_natCast _ _
  have hScaled := abs_le.mp (abs_scaled_le p x)
  rw [hWhole, ← Int.cast_neg] at hScaled
  exact abs_le.mpr ⟨le_nearestEven hScaled.1, nearestEven_le hScaled.2⟩

/-- Rounding stays between the powers of two around the number. -/
theorem round_bounds {p : ℕ} (hp : 1 ≤ p) {x : K} (hx : 0 < x) :
    (2 : K) ^ Int.log 2 x ≤ round p x ∧ round p x ≤ 2 ^ (Int.log 2 x + 1) := by
  obtain ⟨k, rfl⟩ := Nat.exists_eq_add_of_le' hp
  have hUlp := ulp_pos (k + 1) x
  have hLow : (2 : K) ^ (((k + 1 : ℕ) : ℤ) - 1) = ((2 ^ k : ℤ) : K) := by
    push_cast
    rw [add_sub_cancel_right, zpow_natCast]
  have hHigh : (2 : K) ^ ((k + 1 : ℕ) : ℤ) = ((2 ^ (k + 1) : ℤ) : K) := by
    push_cast
    exact zpow_natCast _ _
  have hScale : ∀ e : ℤ, (2 : K) ^ e * ulp (k + 1) x = 2 ^ (e + (Int.log 2 x + 1 - (k + 1 : ℕ))) :=
    fun e => by rw [ulp, abs_of_pos hx, zpow_add₀ two_ne_zero]
  obtain ⟨hBelow, hAbove⟩ := scaled_bounds (k + 1) hx
  constructor
  · -- from below: at least 2^(p-1) units
    rw [hLow] at hBelow
    have hDigits : ((2 ^ k : ℤ) : K) ≤ nearestEven (x / ulp (k + 1) x) :=
      Int.cast_le.mpr (le_nearestEven hBelow)
    calc (2 : K) ^ Int.log 2 x = ((2 ^ k : ℤ) : K) * ulp (k + 1) x := by
          rw [← hLow, hScale]
          congr 1
          ring
      _ ≤ round (k + 1) x := mul_le_mul_of_nonneg_right hDigits hUlp.le
  · -- from above: at most 2^p units
    rw [hHigh] at hAbove
    have hDigits : (nearestEven (x / ulp (k + 1) x) : K) ≤ ((2 ^ (k + 1) : ℤ) : K) :=
      Int.cast_le.mpr (nearestEven_le hAbove.le)
    calc round (k + 1) x ≤ ((2 ^ (k + 1) : ℤ) : K) * ulp (k + 1) x :=
          mul_le_mul_of_nonneg_right hDigits hUlp.le
      _ = 2 ^ (Int.log 2 x + 1) := by
          rw [← hHigh, hScale]
          congr 1
          ring

/-- A number that is not negative is not rounded to one that is. -/
theorem round_nonneg (p : ℕ) {x : K} (hx : 0 ≤ x) : 0 ≤ round p x := by
  have hScaled : ((0 : ℤ) : K) ≤ x / ulp p x := by
    rw [Int.cast_zero]
    exact div_nonneg hx (ulp_pos p x).le
  exact mul_nonneg (Int.cast_nonneg (le_nearestEven hScaled)) (ulp_pos p x).le

theorem round_pos {p : ℕ} (hp : 1 ≤ p) {x : K} (hx : 0 < x) : 0 < round p x :=
  (zpow_pos two_pos _).trans_le (round_bounds hp hx).1

/-- Rounding keeps the order, above zero. -/
theorem round_le_of_pos {p : ℕ} (hp : 1 ≤ p) {x y : K} (hx : 0 < x) (hxy : x ≤ y) :
    round p x ≤ round p y := by
  have hy := hx.trans_le hxy
  rcases (Int.log_mono_right (b := 2) hx hxy).lt_or_eq with hLess | hSame
  · -- a power of two lies between them
    calc round p x ≤ 2 ^ (Int.log 2 x + 1) := (round_bounds hp hx).2
      _ ≤ 2 ^ Int.log 2 y := zpow_le_zpow_right₀ one_le_two hLess
      _ ≤ round p y := (round_bounds hp hy).1
  · have hUlp : ulp p x = ulp p y := by rw [ulp, ulp, abs_of_pos hx, abs_of_pos hy, hSame]
    have hDigits := nearestEven_mono (div_le_div_of_nonneg_right hxy (ulp_pos p y).le)
    rw [round, round, hUlp]
    exact mul_le_mul_of_nonneg_right (Int.cast_le.mpr hDigits) (ulp_pos p y).le

/-- Rounding is monotone. -/
theorem round_mono {p : ℕ} (hp : 1 ≤ p) : Monotone (round p : K → K) := by
  intro x y hxy
  rcases lt_or_ge 0 x with hx | hx
  · exact round_le_of_pos hp hx hxy
  · rcases lt_or_ge y 0 with hy | hy
    · have hOpposite := round_le_of_pos hp (neg_pos.mpr hy) (neg_le_neg hxy)
      rwa [round_neg, round_neg, neg_le_neg_iff] at hOpposite
    · have hBelow := round_nonneg p (neg_nonneg.mpr hx)
      rw [round_neg] at hBelow
      exact (neg_nonneg.mp hBelow).trans (round_nonneg p hy)

/-- A whole multiple of the last digit is not changed. -/
theorem round_of_scaled {p : ℕ} {x : K} {n : ℤ} (hn : x / ulp p x = n) : round p x = x := by
  rw [round, hn, nearestEven_intCast, ← hn, div_mul_cancel₀ _ (ulp_pos p x).ne']

/-- A number of `p` digits is its own rounding, above zero. -/
theorem round_of_digits_pos {p : ℕ} (hp : 1 ≤ p) {m : ℤ} (hPos : 0 < m) (hm : m ≤ 2 ^ p) (e : ℤ) :
    round p ((m : K) * 2 ^ e) = m * 2 ^ e := by
  have hx : (0 : K) < m * 2 ^ e := mul_pos (by exact_mod_cast hPos) (zpow_pos two_pos _)
  have hScaled : ((m : K) * 2 ^ e) / ulp p ((m : K) * 2 ^ e) =
      m * 2 ^ (e - (Int.log 2 ((m : K) * 2 ^ e) + 1 - p)) := by
    rw [ulp, abs_of_pos hx, mul_div_assoc, ← zpow_sub₀ two_ne_zero]
  generalize hLog : Int.log 2 ((m : K) * 2 ^ e) = k at hScaled
  rcases le_or_gt (k + 1 - p) e with hFine | hCoarse
  · -- the unit divides the number
    obtain ⟨n, hn⟩ := Int.eq_ofNat_of_zero_le (sub_nonneg.mpr hFine)
    refine round_of_scaled (n := m * 2 ^ n) ?_
    rw [hScaled, hn]
    push_cast
    rw [zpow_natCast]
  · -- only a power of two has fewer digits than it has places
    have hPower : (m : K) * 2 ^ e = 2 ^ k := by
      have hAbove : (2 : K) ^ k ≤ m * 2 ^ e := by
        have hLe := Int.zpow_log_le_self (b := 2) one_lt_two hx
        rw [hLog] at hLe
        exact_mod_cast hLe
      refine le_antisymm ?_ hAbove
      calc (m : K) * 2 ^ e ≤ 2 ^ (p : ℤ) * 2 ^ e := by
            refine mul_le_mul_of_nonneg_right ?_ (zpow_nonneg zero_le_two _)
            rw [zpow_natCast]
            exact_mod_cast hm
        _ = 2 ^ (p + e) := (zpow_add₀ two_ne_zero _ _).symm
        _ ≤ 2 ^ k := zpow_le_zpow_right₀ one_le_two (by omega)
    obtain ⟨n, rfl⟩ := Nat.exists_eq_add_of_le' hp
    refine round_of_scaled (n := 2 ^ n) ?_
    rw [hScaled, zpow_sub₀ two_ne_zero, ← mul_div_assoc, hPower, ← zpow_sub₀ two_ne_zero]
    push_cast
    rw [← zpow_natCast]
    congr 1
    ring

/-- A number of `p` digits is not changed. -/
theorem round_of_digits {p : ℕ} (hp : 1 ≤ p) {m : ℤ} (hm : |m| ≤ 2 ^ p) (e : ℤ) :
    round p ((m : K) * 2 ^ e) = m * 2 ^ e := by
  obtain ⟨hLow, hHigh⟩ := abs_le.mp hm
  rcases lt_trichotomy m 0 with hNeg | rfl | hPos
  · have hOpposite := round_of_digits_pos (K := K) hp (neg_pos.mpr hNeg) (by omega) e
    rw [Int.cast_neg, neg_mul, round_neg] at hOpposite
    exact neg_inj.mp hOpposite
  · simp
  · exact round_of_digits_pos hp hPos hHigh e

theorem round_intCast {p : ℕ} (hp : 1 ≤ p) {n : ℤ} (hn : |n| ≤ 2 ^ p) :
    round p (n : K) = n := by
  simpa using round_of_digits (K := K) hp hn 0

/-- A whole number is rounded to a whole number. -/
theorem exists_round_intCast {p : ℕ} (hp : 1 ≤ p) (n : ℤ) : ∃ m : ℤ, round p (n : K) = m := by
  rcases le_or_gt |n| (2 ^ p) with hSmall | hLarge
  · exact ⟨n, round_intCast hp hSmall⟩
  · -- the last of the digits is before the point
    have hAbove : (2 : K) ^ (p : ℤ) ≤ |(n : K)| := by
      rw [zpow_natCast]
      exact_mod_cast hLarge.le
    have hLog : (p : ℤ) ≤ Int.log 2 |(n : K)| := by
      refine (Int.zpow_le_iff_le_log one_lt_two ((zpow_pos two_pos _).trans_le hAbove)).mp ?_
      exact_mod_cast hAbove
    obtain ⟨k, hk⟩ := Int.eq_ofNat_of_zero_le
      (show 0 ≤ Int.log 2 |(n : K)| + 1 - p by omega)
    refine ⟨nearestEven ((n : K) / ulp p (n : K)) * 2 ^ k, ?_⟩
    rw [round, ulp, hk]
    push_cast
    rw [zpow_natCast]

/-- One less than a number of `p` digits has no more of them, if the digits reach the
point. -/
theorem round_sub_one {p : ℕ} (hp : 1 ≤ p) {x : K} (hDigits : round p x = x) (hOne : 1 ≤ x)
    (hHigh : x ≤ 2 ^ p) : round p (x - 1) = x - 1 := by
  rcases hHigh.lt_or_eq with hLess | rfl
  · have hPos := zero_lt_one.trans_le hOne
    -- below 2^p the unit is 2^-k, and 1 is a whole number of units
    have hLog : Int.log 2 x < p := by
      refine (Int.lt_zpow_iff_log_lt one_lt_two hPos).mp ?_
      rw [zpow_natCast]
      exact_mod_cast hLess
    obtain ⟨k, hk⟩ := Int.eq_ofNat_of_zero_le (show 0 ≤ p - (Int.log 2 x + 1) by omega)
    have hUlp : ulp p x = 2 ^ (-(k : ℤ)) := by
      rw [ulp, abs_of_pos hPos]
      congr 1
      omega
    obtain ⟨-, hMost⟩ := abs_le.mp (abs_nearestEven_scaled_le p x)
    have hx : (nearestEven (x / ulp p x) : K) * 2 ^ (-(k : ℤ)) = x := by
      rw [← hUlp]
      exact hDigits
    generalize nearestEven (x / ulp p x) = m at hMost hx
    have hScale : (2 : K) ^ k * 2 ^ (-(k : ℤ)) = 1 := by
      rw [zpow_neg, zpow_natCast, mul_inv_cancel₀ (pow_ne_zero _ two_ne_zero)]
    -- x has at least as many units as 1, and one less stays representable
    have hLeast : 2 ^ k ≤ m := by
      have hScaled : (2 : K) ^ k * 2 ^ (-(k : ℤ)) ≤ m * 2 ^ (-(k : ℤ)) := by rwa [hScale, hx]
      exact_mod_cast le_of_mul_le_mul_right hScaled (zpow_pos two_pos _)
    have hLess : x - 1 = ((m - 2 ^ k : ℤ) : K) * 2 ^ (-(k : ℤ)) := by
      push_cast
      rw [sub_mul, hScale, hx]
    rw [hLess]
    have hPower : (0 : ℤ) < 2 ^ k := by positivity
    exact round_of_digits hp (abs_le.mpr ⟨by omega, by omega⟩) _
  · -- 2^p itself is whole
    have hWhole : ((2 : K) ^ p - 1) = ((2 ^ p - 1 : ℤ) : K) := by push_cast; ring
    rw [hWhole]
    have hPower : (1 : ℤ) ≤ 2 ^ p := by exact_mod_cast Nat.one_le_two_pow
    exact round_intCast hp (abs_le.mpr ⟨by omega, by omega⟩)

/-- Rounding once is enough. -/
theorem round_round {p : ℕ} (hp : 1 ≤ p) (x : K) : round p (round p x) = round p x := by
  conv_lhs => rw [round.eq_def p x]
  exact round_of_digits hp (abs_nearestEven_scaled_le p x) _

/-- The last digit of a number below a power. -/
theorem ulp_le (p : ℕ) {x : K} (hx : x ≠ 0) {e : ℤ} (hHigh : |x| < 2 ^ e) :
    ulp p x ≤ 2 ^ (e - p) := by
  have hLog : Int.log 2 |x| < e := by
    refine (Int.lt_zpow_iff_log_lt one_lt_two (abs_pos.mpr hx)).mp ?_
    exact_mod_cast hHigh
  exact zpow_le_zpow_right₀ one_le_two (by omega)

/-- The error is at most half of the last digit. -/
theorem abs_round_sub_le (p : ℕ) (x : K) : |round p x - x| ≤ ulp p x / 2 := by
  have hUlp := ulp_pos p x
  have hError : round p x - x = (nearestEven (x / ulp p x) - x / ulp p x) * ulp p x := by
    rw [sub_mul, div_mul_cancel₀ _ hUlp.ne', round]
  rw [hError, abs_mul, abs_of_pos hUlp]
  linarith [mul_le_mul_of_nonneg_right (abs_nearestEven_sub_le (x / ulp p x)) hUlp.le]

end Rounding
