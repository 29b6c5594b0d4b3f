import Mathlib.Data.Int.Log
import Mathlib.Data.Rat.Floor
import Mathlib.Tactic.Linarith
import Mathlib.Tactic.Ring
import Mathlib.Tactic.NormNum

/-!
Rounding of rationals to the nearest integer, ties to even, and from it
rounding to a number of significant bits, as binary floating point does where
its exponent range is not left. Everything is executable on rationals.
-/

namespace ServerClientApp.Rounding

/-- The nearest integer, the even one of two equally near. -/
def roundHalfEven (x : ℚ) : ℤ :=
  if x - ⌊x⌋ < 1 / 2 then ⌊x⌋
  else if 1 / 2 < x - ⌊x⌋ then ⌊x⌋ + 1
  else if ⌊x⌋ % 2 = 0 then ⌊x⌋ else ⌊x⌋ + 1

theorem roundHalfEven_error (x : ℚ) : |(roundHalfEven x : ℚ) - x| ≤ 1 / 2 := by
  have hlo := Int.floor_le x
  have hhi := Int.lt_floor_add_one x
  unfold roundHalfEven
  rw [abs_le]
  split_ifs <;> push_cast <;> constructor <;> linarith

/-- Rounding does not pass an integer bound. -/
theorem roundHalfEven_le {x : ℚ} {n : ℤ} (h : x ≤ n) : roundHalfEven x ≤ n := by
  have herr := (abs_le.mp (roundHalfEven_error x)).2
  have hlt : (roundHalfEven x : ℚ) < (n + 1 : ℤ) := by
    push_cast
    linarith
  exact Int.lt_add_one_iff.mp (by exact_mod_cast hlt)

/-- A number within less than half of an integer rounds to it. -/
theorem roundHalfEven_eq {x : ℚ} {n : ℤ} (h : |x - n| < 1 / 2) : roundHalfEven x = n := by
  obtain ⟨hlo, hhi⟩ := abs_lt.mp h
  obtain ⟨hlo', hhi'⟩ := abs_le.mp (roundHalfEven_error x)
  have hbelow : (roundHalfEven x : ℚ) < (n + 1 : ℤ) := by
    push_cast
    linarith
  have habove : ((n - 1 : ℤ) : ℚ) < roundHalfEven x := by
    push_cast
    linarith
  have hbelow' : roundHalfEven x < n + 1 := by exact_mod_cast hbelow
  have habove' : n - 1 < roundHalfEven x := by exact_mod_cast habove
  omega

/-- The weight of the last of the significant bits of a number. -/
def ulp (bits : ℕ) (x : ℚ) : ℚ := 2 ^ (Int.log 2 |x| + 1 - bits)

def toPrecision (bits : ℕ) (x : ℚ) : ℚ :=
  if x = 0 then 0 else roundHalfEven (x / ulp bits x) * ulp bits x

theorem ulp_pos (bits : ℕ) (x : ℚ) : 0 < ulp bits x := zpow_pos (by norm_num) _

theorem ulp_le (bits : ℕ) (x : ℚ) (hx : x ≠ 0) : ulp bits x / 2 ≤ |x| * 2 ^ (-(bits : ℤ)) := by
  have hlog : (2 : ℚ) ^ Int.log 2 |x| ≤ |x| := by
    exact_mod_cast Int.zpow_log_le_self (by norm_num) (abs_pos.mpr hx)
  have hsplit : ulp bits x / 2 = 2 ^ Int.log 2 |x| * 2 ^ (-(bits : ℤ)) := by
    unfold ulp
    rw [← zpow_add₀ (by norm_num), div_eq_iff (by norm_num), ← zpow_add_one₀ (by norm_num)]
    congr 1
    ring
  rw [hsplit]
  exact mul_le_mul_of_nonneg_right hlog (zpow_nonneg (by norm_num) _)

/-- The relative error is at most half a unit of the last significant bit. -/
theorem toPrecision_error (bits : ℕ) (x : ℚ) :
    |toPrecision bits x - x| ≤ |x| * 2 ^ (-(bits : ℤ)) := by
  unfold toPrecision
  by_cases hx : x = 0
  · simp [hx]
  · simp only [hx, if_false]
    have hpos := ulp_pos bits x
    have herr := roundHalfEven_error (x / ulp bits x)
    calc
      |(roundHalfEven (x / ulp bits x) : ℚ) * ulp bits x - x|
          = |(roundHalfEven (x / ulp bits x) : ℚ) - x / ulp bits x| * ulp bits x := by
            rw [← abs_of_pos hpos, ← abs_mul, abs_of_pos hpos, sub_mul, div_mul_cancel₀ _ hpos.ne']
      _ ≤ 1 / 2 * ulp bits x := mul_le_mul_of_nonneg_right herr hpos.le
      _ = ulp bits x / 2 := by ring
      _ ≤ |x| * 2 ^ (-(bits : ℤ)) := ulp_le bits x hx

/-- With at least one bit, a number that is not negative stays so and less than
doubles. -/
theorem toPrecision_bounds (bits : ℕ) (hbits : 1 ≤ bits) {x : ℚ} (hx : 0 ≤ x) :
    0 ≤ toPrecision bits x ∧ toPrecision bits x ≤ 2 * x := by
  have herr := toPrecision_error bits x
  have hscale : |x| * 2 ^ (-(bits : ℤ)) ≤ x := by
    rw [abs_of_nonneg hx]
    calc
      x * 2 ^ (-(bits : ℤ)) ≤ x * 2 ^ (0 : ℤ) := by
        gcongr
        · norm_num
        · omega
      _ = x := by simp
  obtain ⟨hlo, hhi⟩ := abs_le.mp (herr.trans hscale)
  constructor <;> linarith

section Compounded

variable {rnd : ℚ → ℚ} {u : ℚ}

/-- One more division by d, rounded with relative error u, after the error e. -/
theorem div_error (hu : 0 ≤ u) (hrnd : ∀ x, |rnd x - x| ≤ u * |x|) {d e x y scale : ℚ}
    (hd : 0 < d) (hscale : 0 < scale) (herr : |scale * y - x| ≤ e) :
    |scale * d * rnd (y / d) - x| ≤ (1 + u) * e + u * |x| := by
  have hsize : |scale * y| ≤ e + |x| := by
    calc
      |scale * y| = |(scale * y - x) + x| := by ring_nf
      _ ≤ |scale * y - x| + |x| := abs_add_le _ _
      _ ≤ e + |x| := by linarith
  have hlast : |scale * d * (rnd (y / d) - y / d)| ≤ u * |scale * y| := by
    calc
      |scale * d * (rnd (y / d) - y / d)| = scale * d * |rnd (y / d) - y / d| := by
        rw [abs_mul, abs_of_pos (mul_pos hscale hd)]
      _ ≤ scale * d * (u * |y / d|) := by
        gcongr
        exact hrnd (y / d)
      _ = u * |scale * y| := by
        rw [abs_div, abs_of_pos hd, abs_mul, abs_of_pos hscale]
        field_simp
  calc
    |scale * d * rnd (y / d) - x|
        = |scale * d * (rnd (y / d) - y / d) + (scale * y - x)| := by
          congr 1
          field_simp
          ring
    _ ≤ |scale * d * (rnd (y / d) - y / d)| + |scale * y - x| := abs_add_le _ _
    _ ≤ u * (e + |x|) + e := by
      have := mul_le_mul_of_nonneg_left hsize hu
      linarith
    _ = (1 + u) * e + u * |x| := by ring

/-- The relative error of so many rounded divisions in a row. -/
theorem iterate_div_error (hu : 0 ≤ u) (hrnd : ∀ x, |rnd x - x| ≤ u * |x|) {d : ℚ}
    (hd : 0 < d) (x : ℚ) (p : ℕ) :
    |d ^ p * (fun y => rnd (y / d))^[p] x - x| ≤ ((1 + u) ^ p - 1) * |x| := by
  induction p with
  | zero => simp
  | succ p ih =>
    have hstep := div_error hu hrnd hd (pow_pos hd p) ih
    rw [Function.iterate_succ_apply', pow_succ d p]
    calc
      |d ^ p * d * rnd ((fun y => rnd (y / d))^[p] x / d) - x|
          ≤ (1 + u) * (((1 + u) ^ p - 1) * |x|) + u * |x| := hstep
      _ = ((1 + u) ^ (p + 1) - 1) * |x| := by ring

end Compounded

end ServerClientApp.Rounding
