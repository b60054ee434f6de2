import Mathlib.Data.Int.Log
import Mathlib.Data.Rat.Floor
import Mathlib.Tactic.Linarith

/-! Binary64 numbers by their values. A number that is past the largest one keeps its value: it saturates in a cast as an
    infinity does. -/

namespace Binary64

def roundEven (x : ℚ) : ℤ :=
  if Int.fract x < 1 / 2 ∨ Int.fract x = 1 / 2 ∧ 2 ∣ ⌊x⌋ then ⌊x⌋ else ⌊x⌋ + 1

/-- The distance between the numbers around `x`. -/
def ulp (x : ℚ) : ℚ := 2 ^ max (Int.log 2 |x| - 52) (-1074)

def nearest (x : ℚ) : ℚ := roundEven (x / ulp x) * ulp x

/-- Halves go away from zero. -/
def roundAway (x : ℚ) : ℤ := if x < 0 then -⌊-x + 1 / 2⌋ else ⌊x + 1 / 2⌋

def toI64 (n : ℤ) : Int64 := .ofInt (max (-2 ^ 63) (min n (2 ^ 63 - 1)))

theorem abs_roundEven_sub (x : ℚ) : |roundEven x - x| ≤ 1 / 2 := by
  have hfract := Int.self_sub_floor x
  have hnonneg := Int.fract_nonneg x
  have hlt := Int.fract_lt_one x
  rw [abs_le, roundEven]
  split
  · rename_i h
    rcases h with h | h <;> constructor <;> linarith [h]
  · rename_i h
    have hge := le_of_not_gt (not_or.1 h).1
    push_cast
    constructor <;> linarith

theorem ulp_le {x : ℚ} {n : ℤ} (hx : |x| < 2 ^ n) (pos : 0 < n) : ulp x ≤ 2 ^ (n - 53) := by
  refine zpow_le_zpow_right₀ one_le_two (max_le ?_ (by omega))
  rcases eq_or_ne x 0 with rfl | hne
  · simp
    omega
  · have hlog : Int.log 2 |x| < n := (Int.lt_zpow_iff_log_lt one_lt_two (abs_pos.2 hne)).1 hx
    omega

theorem abs_nearest_sub {x : ℚ} {n : ℤ} (hx : |x| < 2 ^ n) (pos : 0 < n) : |nearest x - x| ≤ 1 / 2 * 2 ^ (n - 53) := by
  have hpos : 0 < ulp x := zpow_pos two_pos _
  calc |nearest x - x| = |roundEven (x / ulp x) - x / ulp x| * ulp x := by
        rw [← abs_of_pos hpos, ← abs_mul, abs_of_pos hpos, sub_mul, div_mul_cancel₀ _ hpos.ne', nearest]
    _ ≤ 1 / 2 * 2 ^ (n - 53) := mul_le_mul (abs_roundEven_sub _) (ulp_le hx pos) hpos.le (by norm_num)

theorem roundAway_eq {x : ℚ} {k : ℤ} (h : |x - k| < 1 / 2) : roundAway x = k := by
  obtain ⟨hlo, hhi⟩ := abs_lt.1 h
  unfold roundAway
  split
  · rw [neg_eq_iff_eq_neg, Int.floor_eq_iff]
    push_cast
    constructor <;> linarith
  · rw [Int.floor_eq_iff]
    constructor <;> linarith

/-- A number of hundredths below `10 ^ 14` comes back from its decimal value. -/
theorem roundAway_hundred {k : ℤ} (h : |(k : ℚ)| < 10 ^ 14) : roundAway (nearest (nearest (k / 100) * 100)) = k := by
  obtain ⟨hlo, hhi⟩ := abs_lt.1 h
  have hfirst := abs_nearest_sub (x := k / 100) (n := 40) (abs_lt.2 (by constructor <;> linarith)) (by decide)
  rw [abs_le] at hfirst
  norm_num at hfirst
  have hsecond := abs_nearest_sub (x := nearest (k / 100) * 100) (n := 47)
    (abs_lt.2 (by constructor <;> linarith [hfirst.1, hfirst.2])) (by decide)
  rw [abs_le] at hsecond
  norm_num at hsecond
  exact roundAway_eq (abs_lt.2 (by constructor <;> linarith [hfirst.1, hfirst.2, hsecond.1, hsecond.2]))

end Binary64
