import Mathlib.Algebra.Order.Field.Power
import Mathlib.Data.Int.Log
import Mathlib.Tactic.Positivity
import MoeStream.Foundation.FixedWidth

/-!
# Binary floating-point formats

A format has significands of a fixed number of bits and a least exponent.  An
operation is exact arithmetic followed by rounding to the nearest value of the
format, to the even significand halfway between two.  Infinities are not
values here: a result is infinite from `2 ^ maxExp` on.
-/

set_option autoImplicit false

namespace MoeStream.Foundation.FloatFormat

open FixedWidth

structure Format where
  precision : Nat
  minExp : Int
  maxExp : Nat
  digits : 0 < precision := by decide
  normal : minExp ≤ -precision := by decide
  unbounded : 0 < maxExp := by decide

def binary64 : Format where
  precision := 53
  minExp := -1074
  maxExp := 1024

/-- The 80-bit format of the x87 unit. -/
def extended : Format where
  precision := 64
  minExp := -16445
  maxExp := 16384

namespace Format

variable (f : Format)

/-- The exponent of the last bit of the values around `q`. -/
def scale (q : ℚ) : Int := max (Int.log 2 |q| + 1 - f.precision) f.minExp

def nearest (q : ℚ) : ℚ := roundEven (q / 2 ^ f.scale q) * 2 ^ f.scale q

def Exact (q : ℚ) : Prop :=
  ∃ (m : Int) (e : Int), q = m * 2 ^ e ∧ |m| < 2 ^ f.precision ∧ f.minExp ≤ e

variable {f} {q r : ℚ}

@[simp] theorem scale_neg : f.scale (-q) = f.scale q := by
  rw [scale, scale, abs_neg]

theorem scale_le {b : Int} (small : |q| < 2 ^ b) (nonzero : q ≠ 0) :
    f.scale q ≤ max (b - f.precision) f.minExp := by
  have log : Int.log 2 |q| < b :=
    (Int.lt_zpow_iff_log_lt (by decide) (abs_pos.mpr nonzero)).mp (by exact_mod_cast small)
  simp only [scale]
  omega

@[simp] theorem nearest_zero : f.nearest 0 = 0 := by
  have whole : roundEven (0 : ℚ) = 0 := by exact_mod_cast roundEven_intCast 0
  rw [nearest, zero_div, whole, Int.cast_zero, zero_mul]

@[simp] theorem nearest_neg (q : ℚ) : f.nearest (-q) = -f.nearest q := by
  rw [nearest, nearest, scale_neg, neg_div, roundEven_neg, Int.cast_neg, neg_mul]

theorem nearest_units (m : Int) (units : q = m * 2 ^ f.scale q) : f.nearest q = q := by
  have whole : q / 2 ^ f.scale q = m := by
    rw [div_eq_iff (by positivity)]
    exact units
  rw [nearest, whole, roundEven_intCast, ← units]

theorem units_of {m e : Int} (value : q = m * 2 ^ e) (coarse : f.scale q ≤ e) :
    ∃ k : Int, q = k * 2 ^ f.scale q := by
  refine ⟨m * 2 ^ (e - f.scale q).toNat, ?_⟩
  have shift : e = (e - f.scale q).toNat + f.scale q := by omega
  calc q = m * 2 ^ e := value
    _ = m * 2 ^ (((e - f.scale q).toNat : Int) + f.scale q) := by rw [← shift]
    _ = ((m * 2 ^ (e - f.scale q).toNat : Int) : ℚ) * 2 ^ f.scale q := by
      rw [zpow_add₀ (by norm_num), zpow_natCast]
      push_cast
      ring

theorem abs_units {m e : Int} (value : q = m * 2 ^ e) : |q| = |m| * 2 ^ e := by
  rw [value, abs_mul, abs_of_pos (by positivity : (0 : ℚ) < 2 ^ e)]
  push_cast
  rfl

@[simp] theorem nearest_exact (exact : f.Exact q) : f.nearest q = q := by
  obtain ⟨m, e, value, fits, least⟩ := exact
  rcases eq_or_ne q 0 with rfl | nonzero
  · exact nearest_zero
  · have small : |q| < 2 ^ (f.precision + e) := by
      rw [abs_units value, zpow_add₀ (by norm_num)]
      exact mul_lt_mul_of_pos_right (by exact_mod_cast fits) (by positivity)
    have coarse := f.scale_le small nonzero
    obtain ⟨k, units⟩ := f.units_of value (by omega)
    exact nearest_units k units

theorem nearest_nonneg (nonneg : 0 ≤ q) : 0 ≤ f.nearest q := by
  have units : (0 : Int) ≤ roundEven (q / 2 ^ f.scale q) :=
    le_roundEven (by push_cast; positivity)
  simp only [nearest]
  have cast : (0 : ℚ) ≤ roundEven (q / 2 ^ f.scale q) := by exact_mod_cast units
  positivity

/-- Between two values of different scales lies a power of two, which is a value
of both. -/
theorem nearest_mono_pos (positive : 0 < q) (le : q ≤ r) : f.nearest q ≤ f.nearest r := by
  have larger : 0 < r := positive.trans_le le
  have logs : Int.log 2 |q| ≤ Int.log 2 |r| := by
    rw [abs_of_pos positive, abs_of_pos larger]
    exact Int.log_mono_right positive le
  rcases lt_or_eq_of_le (show f.scale q ≤ f.scale r by unfold scale; omega) with finer | same
  · have digits := f.digits
    obtain ⟨low, high⟩ : Int.log 2 |q| < Int.log 2 |r| ∧ f.scale r ≤ Int.log 2 |r| := by
      simp only [scale] at finer ⊢
      omega
    rw [abs_of_pos positive, abs_of_pos larger] at low
    rw [abs_of_pos larger] at high
    have below : q ≤ 2 ^ Int.log 2 r :=
      (by exact_mod_cast (Int.lt_zpow_iff_log_lt (by decide) positive).mpr low :
        q < 2 ^ Int.log 2 r).le
    have above : (2 : ℚ) ^ Int.log 2 r ≤ r := by
      exact_mod_cast Int.zpow_log_le_self (b := 2) (by decide) larger
    have power : ∀ s : Int, s ≤ Int.log 2 r →
        (2 : ℚ) ^ Int.log 2 r = ((2 ^ (Int.log 2 r - s).toNat : Int) : ℚ) * 2 ^ s := by
      intro s fine
      push_cast
      rw [← zpow_natCast, ← zpow_add₀ (by norm_num)]
      congr 1
      omega
    calc f.nearest q
        ≤ ((2 ^ (Int.log 2 r - f.scale q).toNat : Int) : ℚ) * 2 ^ f.scale q := by
          simp only [nearest]
          gcongr
          apply roundEven_le
          rw [div_le_iff₀ (by positivity), ← power _ (by omega)]
          exact below
      _ = 2 ^ Int.log 2 r := (power _ (by omega)).symm
      _ = ((2 ^ (Int.log 2 r - f.scale r).toNat : Int) : ℚ) * 2 ^ f.scale r := power _ high
      _ ≤ f.nearest r := by
          simp only [nearest]
          gcongr
          apply le_roundEven
          rw [le_div_iff₀ (by positivity), ← power _ high]
          exact above
  · simp only [nearest]
    rw [same]
    gcongr
    exact_mod_cast roundEven_mono (by gcongr)

theorem nearest_mono (le : q ≤ r) : f.nearest q ≤ f.nearest r := by
  rcases lt_trichotomy 0 q with positive | rfl | negative
  · exact nearest_mono_pos positive le
  · rw [nearest_zero]
    exact nearest_nonneg le
  · rcases le_or_gt 0 r with nonneg | below
    · have sign : 0 ≤ f.nearest (-q) := nearest_nonneg (by linarith)
      rw [nearest_neg] at sign
      linarith [nearest_nonneg (f := f) nonneg]
    · have mirrored := nearest_mono_pos (f := f) (q := -r) (r := -q) (by linarith) (by linarith)
      rw [nearest_neg, nearest_neg] at mirrored
      linarith

theorem nearest_abs (q : ℚ) : |f.nearest q| = f.nearest |q| := by
  rcases le_total 0 q with nonneg | negative
  · rw [abs_of_nonneg nonneg, abs_of_nonneg (nearest_nonneg nonneg)]
  · rw [abs_of_nonpos negative, nearest_neg, abs_of_nonpos]
    rw [← neg_nonneg, ← nearest_neg]
    exact nearest_nonneg (by linarith)

theorem nearest_le (exact : f.Exact r) (le : q ≤ r) : f.nearest q ≤ r := by
  rw [← nearest_exact exact]
  exact nearest_mono le

theorem le_nearest (exact : f.Exact q) (le : q ≤ r) : q ≤ f.nearest r := by
  rw [← nearest_exact exact]
  exact nearest_mono le

theorem nearest_error {b : Nat} (small : |q| < 2 ^ b) :
    |f.nearest q - q| ≤ 2 ^ ((b : Int) - f.precision) / 2 := by
  rcases eq_or_ne q 0 with rfl | nonzero
  · rw [nearest_zero, sub_zero, abs_zero]
    positivity
  · have normal := f.normal
    have coarse := f.scale_le (b := b) (by exact_mod_cast small) nonzero
    rw [max_eq_left (by omega)] at coarse
    have unit : (2 : ℚ) ^ f.scale q ≤ 2 ^ ((b : Int) - f.precision) :=
      zpow_le_zpow_right₀ (by norm_num) coarse
    have positive : (0 : ℚ) < 2 ^ f.scale q := by positivity
    obtain ⟨low, high⟩ := roundEven_near (q / 2 ^ f.scale q)
    have whole : q = q / 2 ^ f.scale q * 2 ^ f.scale q := (div_mul_cancel₀ q positive.ne').symm
    have error : |(roundEven (q / 2 ^ f.scale q) : ℚ) - q / 2 ^ f.scale q| ≤ 1 / 2 := by
      rw [abs_le]
      constructor <;> linarith
    calc |f.nearest q - q|
        = |((roundEven (q / 2 ^ f.scale q) : ℚ) - q / 2 ^ f.scale q) * 2 ^ f.scale q| := by
          rw [sub_mul, ← whole]
          rfl
      _ ≤ 1 / 2 * 2 ^ f.scale q := by
          rw [abs_mul, abs_of_pos positive]
          gcongr
      _ ≤ 2 ^ ((b : Int) - f.precision) / 2 := by linarith

/-! Natural numbers and their binary fractions are values while they are small. -/

theorem exact_natCast {n : Nat} (fits : n < 2 ^ f.precision) : f.Exact n :=
  ⟨n, 0, by simp, by exact_mod_cast fits, by have := f.normal; omega⟩

theorem exact_shift {n j : Nat} (fits : n < 2 ^ f.precision) (places : j ≤ f.precision) :
    f.Exact ((n : ℚ) / 2 ^ j) := by
  refine ⟨n, -j, ?_, by exact_mod_cast fits, by have := f.normal; omega⟩
  rw [zpow_neg, zpow_natCast, Int.cast_natCast]
  rfl

theorem exact_one : f.Exact 1 := by
  have one := Nat.one_lt_two_pow (Nat.ne_of_gt f.digits)
  exact_mod_cast exact_natCast one

/-! ## Adding a half -/

theorem significand_le (q : ℚ) : |roundEven (q / 2 ^ f.scale q)| ≤ 2 ^ f.precision := by
  rcases eq_or_ne q 0 with rfl | nonzero
  · have whole : roundEven (0 : ℚ) = 0 := by exact_mod_cast roundEven_intCast 0
    rw [zero_div, whole, abs_zero]
    positivity
  · have range : |q / 2 ^ f.scale q| ≤ ((2 ^ f.precision : Int) : ℚ) := by
      have power : (2 : ℚ) ^ f.precision * 2 ^ f.scale q = 2 ^ (f.precision + f.scale q) := by
        rw [zpow_add₀ (by norm_num), zpow_natCast]
      have log : |q| < 2 ^ (Int.log 2 |q| + 1) := by
        exact_mod_cast Int.lt_zpow_succ_log_self (b := 2) (by decide) |q|
      rw [abs_div, abs_of_pos (by positivity : (0 : ℚ) < 2 ^ f.scale q),
        div_le_iff₀ (by positivity)]
      push_cast
      rw [power]
      exact log.le.trans (zpow_le_zpow_right₀ (by norm_num) (by unfold scale; omega))
    obtain ⟨low, high⟩ := abs_le.mp range
    exact abs_le.mpr ⟨le_roundEven (by push_cast at low ⊢; exact low), roundEven_le high⟩

theorem nearest_multiple (q : ℚ) :
    ∃ k : Int, f.nearest q = k * 2 ^ f.scale (f.nearest q) := by
  have fits := f.significand_le q
  obtain ⟨m, significand⟩ : ∃ m : Int, m = roundEven (q / 2 ^ f.scale q) := ⟨_, rfl⟩
  have value : f.nearest q = m * 2 ^ f.scale q := by rw [significand, nearest]
  rw [← significand] at fits
  have least : f.minExp ≤ f.scale q := le_max_right _ _
  rcases eq_or_ne (f.nearest q) 0 with zero | nonzero
  · exact ⟨0, by rw [zero, Int.cast_zero, zero_mul]⟩
  rcases lt_or_eq_of_le fits with inside | carried
  · have small : |f.nearest q| < 2 ^ (f.precision + f.scale q) := by
      rw [abs_units value, zpow_add₀ (by norm_num)]
      exact mul_lt_mul_of_pos_right (by exact_mod_cast inside) (by positivity)
    have coarse := f.scale_le small nonzero
    exact f.units_of value (by omega)
  · -- the significand was rounded up to the next power of two
    have small : |f.nearest q| < 2 ^ (f.precision + f.scale q + 1) := by
      rw [abs_units value, carried, add_assoc, zpow_add₀ (by norm_num), zpow_natCast]
      push_cast
      gcongr
      · norm_num
      · omega
    have coarse := f.scale_le small nonzero
    obtain ⟨half, even⟩ : (2 : Int) ∣ m := by
      rw [← dvd_abs, carried]
      exact dvd_pow_self 2 (Nat.ne_of_gt f.digits)
    have shifted : f.nearest q = half * 2 ^ (f.scale q + 1) := by
      rw [value, even, zpow_add₀ (by norm_num)]
      push_cast
      ring
    exact f.units_of shifted (by omega)

theorem scale_floor {n : Nat} (positive : 0 < n) (low : (n : ℚ) ≤ q) (high : q < n + 1) :
    f.scale q = max ((Nat.log 2 n : Int) + 1 - f.precision) f.minExp := by
  have one : (1 : ℚ) ≤ n := by exact_mod_cast positive
  have floor : ⌊q⌋₊ = n := (Nat.floor_eq_iff (by linarith)).mpr ⟨low, high⟩
  rw [scale, abs_of_pos (by linarith), Int.log_of_one_le_right 2 (by linarith), floor]

/-- A result that stays between the same integers is a value when a half is added. -/
theorem nearest_add_half {n : Nat} (positive : 0 < n) (fits : n < 2 ^ (f.precision - 1))
    (low : (n : ℚ) ≤ f.nearest q) (high : f.nearest q < n + 1 / 2) :
    f.nearest (f.nearest q + 1 / 2) = f.nearest q + 1 / 2 := by
  obtain ⟨k, units⟩ := f.nearest_multiple q
  have digits := f.digits
  have normal := f.normal
  have same : f.scale (f.nearest q + 1 / 2) = f.scale (f.nearest q) := by
    rw [scale_floor positive low (by linarith),
      scale_floor positive (by linarith) (by linarith)]
  have log : Nat.log 2 n < f.precision - 1 := Nat.log_lt_of_lt_pow (Nat.ne_of_gt positive) fits
  have fine : f.scale (f.nearest q) ≤ -1 := by
    rw [scale_floor positive low (by linarith)]
    omega
  obtain ⟨j, half⟩ : ∃ j : Int, (1 : ℚ) / 2 = j * 2 ^ f.scale (f.nearest q) := by
    refine ⟨2 ^ (-1 - f.scale (f.nearest q)).toNat, ?_⟩
    push_cast
    rw [← zpow_natCast, ← zpow_add₀ (by norm_num), Int.toNat_of_nonneg (by omega)]
    norm_num
  apply nearest_units (k + j)
  rw [same]
  push_cast
  rw [add_mul, ← units, ← half]

end Format

/-- A result of an operation of type `double`. -/
abbrev double (q : ℚ) : ℚ := binary64.nearest q

theorem double_error {q : ℚ} {b : Nat} (small : |q| < 2 ^ b) : |double q - q| ≤ 2 ^ b / 2 ^ 54 := by
  have unit : (2 : ℚ) ^ ((b : Int) - (53 : Nat)) / 2 = 2 ^ b / 2 ^ 54 := by
    rw [zpow_sub₀ (by norm_num), zpow_natCast, zpow_natCast, div_div, ← pow_succ]
  exact unit ▸ binary64.nearest_error small

end MoeStream.Foundation.FloatFormat
