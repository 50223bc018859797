import Mathlib.Data.List.Find
import MoeStream.Learn.Recommend

/-!
# The learned fraction settles

What `cache_frac=learn` does from start to start: the table follows the last
recommendation of each model to within two hundredths, and a workload that is
measured again, with whatever slots the start derived, changes nothing more.
-/

set_option autoImplicit false

namespace MoeStream

open Foundation.FixedWidth Foundation.FloatFormat Foundation.FloatFormat.Format

/-! ## The rows of other models -/

theorem Tuning.row_put_other {t : Tuning} {row : TuningRow} {small : row.frac ≤ 100}
    {model : Name} (other : row.model ≠ model) : (t.put row small).row model = t.row model := by
  have none : [row].find? (fun row => decide (row.model = model)) = none := by simp [other]
  simp only [Tuning.row, Tuning.put, statePut, List.find?_append, none, Option.or_none,
    List.find?_filter]
  refine List.find?_congr fun old _ => ?_
  by_cases own : old.model = model
  · simp [own, other.symm]
  · simp [own]

theorem Tuning.learnedFrac_keep_other {t : Tuning} {model other : Name} {geometry g : Geometry}
    {q : ℚ} (apart : other ≠ model) :
    (t.keep other g q).learnedFrac model geometry = t.learnedFrac model geometry := by
  rw [Tuning.keep]
  split
  · rw [Tuning.store]
    split
    · rw [Tuning.learnedFrac_eq, Tuning.learnedFrac_eq, Tuning.row_put_other apart]
    · rfl
  · rfl

namespace Report

variable {r r' : Report} {t : Tuning} {q : ℚ}

/-! ## One report -/

def Advises (r : Report) (q : ℚ) : Prop := r.learn = true ∧ r.recommended = some q

theorem report_silent (silent : ∀ q, ¬r.Advises q) (t : Tuning) : r.report t = t := by
  rw [report]
  cases same : r.recommended with
  | none => rfl
  | some q => exact if_neg fun learn => silent q ⟨learn, same⟩

theorem Advises.report (advises : r.Advises q) (t : Tuning) :
    r.report t = t.keep r.model r.geometry q := by
  simp only [Report.report, advises.2, advises.1, if_true]

theorem stored_near (valid : 0 < q ∧ q ≤ 1) :
    |q - double (hundredths q / 100)| ≤ 1 / 200 + 1 / 2 ^ 53 := by
  obtain ⟨low, high⟩ := hundredths_near valid.1.le
  have share : (hundredths q : ℚ) / 100 ≤ 1 := by
    rw [div_le_one (by norm_num)]
    exact_mod_cast hundredths_le valid.2
  obtain ⟨below, above⟩ := abs_le.mp (double_near (by positivity) share)
  rw [abs_le]
  constructor <;> linarith

/-- Advice that was reported is not far enough from the table to be stored again. -/
theorem Advises.settled (advises : r.Advises q) (t : Tuning) :
    ¬(r.report t).Moved r.model r.geometry q := by
  have valid := recommended_valid advises.2
  rw [advises.report, Tuning.keep]
  by_cases moved : t.Moved r.model r.geometry q
  · have small : |q - double (hundredths q / 100)| ≤ ((1 : Nat) : ℚ) / 2 ^ 7 :=
      (stored_near valid).trans (by norm_num)
    have far : ((1 : Nat) : ℚ) / 2 ^ 6 ≤ double (2 / 100) :=
      le_nearest (exact_shift (by decide) (by decide)) (by norm_num)
    have near := nearest_le (exact_shift (f := binary64) (by decide) (by decide)) small
    rw [if_pos moved, Tuning.Moved, Tuning.learnedFrac_store valid, double, nearest_abs, not_le]
    exact lt_of_le_of_lt near (lt_of_lt_of_le (by norm_num) far)
  · rwa [if_neg moved]

theorem Advises.near (advises : r.Advises q) (t : Tuning) :
    |q - (r.report t).learnedFrac r.model r.geometry| < 2 / 100 := by
  by_contra far
  apply advises.settled t
  rw [Tuning.Moved, double, nearest_abs]
  exact nearest_mono (not_lt.mp far)

theorem report_other {model : Name} (apart : r.model ≠ model) (t : Tuning) (geometry : Geometry) :
    (r.report t).learnedFrac model geometry = t.learnedFrac model geometry := by
  rw [report]
  split
  · split
    · exact Tuning.learnedFrac_keep_other apart
    · rfl
  · rfl

/-! ## A workload again -/

/-- Two reports measure the same curve with the same settings, and as many slots
fit; the slots that are held are their own. -/
structure SameWork (r r' : Report) : Prop where
  model : r'.model = r.model
  nExpert : r'.nExpert = r.nExpert
  per : r'.per = r.per
  mrcOn : r'.mrcOn = r.mrcOn
  hist : r'.hist = r.hist
  total : r'.total = r.total
  ptPerGib : r'.ptPerGib = r.ptPerGib
  fits : r'.fits = r.fits
  learn : r'.learn = r.learn

theorem SameWork.knee (same : r.SameWork r') : r'.knee = r.knee := by
  have marg (c c2 : Nat) : r'.marg c c2 = r.marg c c2 := by
    simp only [Report.marg, hit, same.hist, same.total, same.per]
  have slotsAt (fr : ℚ) : r'.slotsAt fr = r.slotsAt fr := by
    simp only [Report.slotsAt, same.nExpert]
  have scan (fractions : List ℚ) : r'.scan fractions = r.scan fractions := by
    induction fractions with
    | nil => rfl
    | cons fr rest ih =>
        cases rest with
        | nil => rfl
        | cons fr2 rest => simp only [Report.scan, marg, slotsAt, same.ptPerGib, ih]
  rw [Report.knee, Report.knee, scan]

theorem SameWork.recommended (same : r.SameWork r') : r'.recommended = r.recommended := by
  simp only [Report.recommended, cap, same.knee, same.fits, same.mrcOn, same.total, same.per,
    same.nExpert]

theorem SameWork.report (same : r.SameWork r') (t : Tuning) :
    r'.report (r.report t) = r.report t := by
  by_cases silent : ∀ q, ¬r.Advises q
  · refine report_silent (fun q advises => silent q ?_) _
    exact ⟨same.learn ▸ advises.1, same.recommended ▸ advises.2⟩
  · obtain ⟨q, advises⟩ := not_forall_not.mp silent
    have advises' : r'.Advises q :=
      ⟨same.learn.trans advises.1, same.recommended.trans advises.2⟩
    have geometry : r'.geometry = r.geometry := by
      rw [Report.geometry, Report.geometry, same.nExpert, same.per]
    rw [advises'.report, Tuning.keep, if_neg]
    rw [same.model, geometry]
    exact advises.settled t

end Report

/-! ## Runs -/

def afterReports (t : Tuning) (reports : List Report) : Tuning :=
  reports.foldl (fun t r => r.report t) t

theorem afterReports_same {r : Report} {t : Tuning} {later : List Report}
    (same : ∀ r' ∈ later, r.SameWork r') : afterReports (r.report t) later = r.report t := by
  induction later with
  | nil => rfl
  | cons r' later ih =>
      rw [afterReports, List.foldl_cons, (same r' List.mem_cons_self).report t, ← afterReports]
      exact ih fun r'' member => same r'' (List.mem_cons_of_mem _ member)

/-- Later reports of other models, and those without advice, do not move a model's
fraction. -/
theorem afterReports_other {model : Name} {geometry : Geometry} {t : Tuning} {later : List Report}
    (quiet : ∀ r ∈ later, r.model = model → ∀ q, ¬r.Advises q) :
    (afterReports t later).learnedFrac model geometry = t.learnedFrac model geometry := by
  induction later generalizing t with
  | nil => rfl
  | cons r later ih =>
      rw [afterReports, List.foldl_cons, ← afterReports,
        ih fun r' member => quiet r' (List.mem_cons_of_mem _ member)]
      by_cases own : r.model = model
      · rw [Report.report_silent (quiet r List.mem_cons_self own)]
      · exact Report.report_other own t geometry

/-- The slots of a fraction are within half a slot of it, but for the rounding. -/
theorem roundSlots_near {n : Nat} {f : ℚ} (narrow : n < 2 ^ 31) (nonneg : 0 ≤ f) (atMost : f ≤ 1) :
    |(roundSlots n f : ℚ) - n * f| ≤ 1 / 2 + 1 / 2 ^ 20 := by
  have count : (0 : ℚ) ≤ n ∧ (n : ℚ) < 2 ^ 31 := ⟨by positivity, by exact_mod_cast narrow⟩
  have product : 0 ≤ n * f ∧ n * f < 2 ^ 31 :=
    ⟨mul_nonneg count.1 nonneg, lt_of_le_of_lt (mul_le_of_le_one_right count.1 atMost) count.2⟩
  obtain ⟨low, high⟩ := abs_le.mp (double_error (b := 31) (abs_lt.mpr ⟨by linarith, product.2⟩))
  have half : 0 ≤ double (n * f) + 1 / 2 := add_nonneg (nearest_nonneg product.1) (by norm_num)
  obtain ⟨low', high'⟩ := abs_le.mp (double_error (q := double (n * f) + 1 / 2) (b := 32)
    (abs_lt.mpr ⟨by linarith, by linarith⟩))
  have positive : 0 ≤ double (double (n * f) + 1 / 2) := nearest_nonneg half
  have rounded : ((roundSlots n f : Nat) : ℚ) = (⌊double (double (n * f) + 1 / 2)⌋ : Int) := by
    rw [roundSlots, truncate, if_pos positive]
    exact_mod_cast Int.toNat_of_nonneg (Int.floor_nonneg.mpr positive)
  have below := Int.floor_le (double (double (n * f) + 1 / 2))
  have above := Int.lt_floor_add_one (double (double (n * f) + 1 / 2))
  rw [← rounded] at below above
  rw [abs_le]
  constructor <;> linarith

theorem slots_near {n slots : Nat} {f : ℚ} (experts : 0 < n) (narrow : n < 2 ^ 31)
    (inside : slots ≤ n) (nonneg : 0 ≤ f) (atMost : f ≤ 1)
    (near : |double (slots / n) - f| < 2 / 100) :
    50 * roundSlots n f ≤ 50 * slots + n + 25 ∧ 50 * slots ≤ 50 * roundSlots n f + n + 25 := by
  have positive : (0 : ℚ) < n := by exact_mod_cast experts
  have count : (n : ℚ) < 2 ^ 31 := by exact_mod_cast narrow
  have share : (slots : ℚ) / n ≤ 1 := (div_le_one positive).mpr (by exact_mod_cast inside)
  have whole : (n : ℚ) * (slots / n) = slots := mul_div_cancel₀ _ positive.ne'
  obtain ⟨low, high⟩ := abs_lt.mp near
  obtain ⟨low', high'⟩ := abs_le.mp (double_near (q := (slots : ℚ) / n) (by positivity) share)
  obtain ⟨below, above⟩ := abs_le.mp (roundSlots_near narrow nonneg atMost)
  have upper : (n : ℚ) * f ≤ n * (slots / n + 2 / 100 + 1 / 2 ^ 53) :=
    mul_le_mul_of_nonneg_left (by linarith) positive.le
  have lower : (n : ℚ) * (slots / n - 2 / 100 - 1 / 2 ^ 53) ≤ n * f :=
    mul_le_mul_of_nonneg_left (by linarith) positive.le
  rw [mul_add, mul_add, whole] at upper
  rw [mul_sub, mul_sub, whole] at lower
  constructor
  · have rational : (50 * roundSlots n f : ℚ) < (50 * slots + n + 25 + 1 : Nat) := by
      push_cast
      linarith
    have natural : 50 * roundSlots n f < 50 * slots + n + 25 + 1 := by exact_mod_cast rational
    omega
  · have rational : (50 * slots : ℚ) < (50 * roundSlots n f + n + 25 + 1 : Nat) := by
      push_cast
      linarith
    have natural : 50 * slots < 50 * roundSlots n f + n + 25 + 1 := by exact_mod_cast rational
    omega

namespace Report

/-- The start after the first one of `asksAll`, which holds 205 slots. -/
def asksAgain : Report :=
  { asksAll 6662651904 with
    slots := 205
    device := some ⟨6662651904, 2147483648 + 205 * 16777216⟩ }

theorem asksAgain_same : (asksAll 6662651904).SameWork asksAgain :=
  ⟨rfl, rfl, rfl, rfl, rfl, rfl, rfl, by decide +kernel, rfl⟩

theorem asksAll_advises : (asksAll 6662651904).Advises (double (205 / 512)) :=
  ⟨rfl, by decide +kernel⟩

end Report

end MoeStream
