import Mathlib.Tactic.FieldSimp
import MoeStream.Learn.Tables
import MoeStream.Slab.Sizing

/-!
# The learned recommendation

Embedding of the decision of `mrc_report`: the slot count the hit-rate curve
asks for, the slots that fit in device memory, and the fraction that is stored.
Every operation on doubles is rounded, in the order of the source.  The theorem
says when the slots of the next start fit.
-/

set_option autoImplicit false

namespace MoeStream

open Foundation.FixedWidth Foundation.FloatFormat Foundation.FloatFormat.Format

/-- Bytes in GiB. -/
def gibOf (bytes : Nat) : ℚ := double (double bytes / 1073741824)

/-- What `device_mem_gib` reads, in bytes. -/
structure DeviceMem where
  total : Nat
  used : Nat

/-- What `mrc_report` works with: the reuse distances of `total` accesses, the
bytes of a slot, and the settings. -/
structure Report where
  model : Name
  nExpert : Nat
  streamed : 1 < nExpert
  narrow : nExpert < 2 ^ 31
  per : Nat
  slots : Nat
  mrcOn : Bool
  hist : List Nat
  total : Nat
  ptPerGib : ℚ := 25 / 10
  device : Option DeviceMem
  usedPeak : Nat
  reserve : ℚ := 1
  learn : Bool

namespace Report

variable (r : Report)

/-- `model_geometry`. -/
def geometry : Geometry := (r.nExpert, r.per)

/-- `hit[c]`: the hit rate at `c` slots. -/
def hit (c : Nat) : ℚ := double (double (r.hist.take c).sum / double r.total)

/-- `fr`. -/
def grid : List ℚ :=
  [5, 10, 15, 20, 25, 30, 35, 40, 50, 60, 75, 100].map fun percent => double (percent / 100)

def slotsAt (fr : ℚ) : Nat := max 1 (roundSlots r.nExpert fr)

/-- Hit-rate points lost for each GiB saved, from `c` down to `c2` slots. -/
def marg (c c2 : Nat) : ℚ :=
  let dm := double (double (double (c - c2) * double r.per) / 1073741824)
  let dh := double (double (r.hit c - r.hit c2) * 100)
  if 0 < dm then double (dh / dm) else 0

def scan : List ℚ → Option Nat
  | fr :: fr2 :: rest =>
      let marg := r.marg (r.slotsAt fr) (r.slotsAt fr2)
      if 0 < marg ∧ r.ptPerGib < marg then some (r.slotsAt fr) else scan (fr2 :: rest)
  | _ => none

/-- `rec`: what the curve asks for. -/
def knee : Option Nat := r.scan grid.reverse

/-- `fits`, when the device can be read. -/
def fitsIn (m : DeviceMem) : Nat :=
  let perSlotGib := gibOf r.per
  let slabNow := double (r.slots * perSlotGib)
  let devUsed := max (gibOf r.usedPeak) (gibOf m.used)
  let nonSlab := max (double (devUsed - slabNow)) 0
  let budget := double (double (gibOf m.total - r.reserve) - nonSlab)
  min (if 0 < budget then (truncate (double (budget / perSlotGib))).toNat else 0) r.nExpert

def fits : Nat := (r.device.map r.fitsIn).getD 0

def cap (slots : Nat) : Nat := if 0 < r.fits ∧ r.fits < slots then r.fits else slots

/-- `rec_frac`, if the report comes to a recommendation. -/
def recommended : Option ℚ :=
  if r.mrcOn = true ∧ 200000 ≤ r.total ∧ 0 < r.per then
    r.knee.map fun slots => double (r.cap slots / r.nExpert)
  else none

/-- `mrc_report`, as far as it changes `tuning.tsv`. -/
def report (t : Tuning) : Tuning :=
  match r.recommended with
  | some q => if r.learn then t.keep r.model r.geometry q else t
  | none => t

def Records (t : Tuning) : Prop :=
  r.learn = true ∧ ∃ q ∈ r.recommended, t.Moved r.model r.geometry q

/-- The slots the next start derives from the table, before the minimum for one
micro-batch. -/
def nextSlots (t : Tuning) : Nat :=
  (Fraction.learn (t.learnedFrac r.model r.geometry)).slots r.nExpert

def Fitting (t : Tuning) : Prop := r.Records t → r.nextSlots (r.report t) ≤ r.fits ∧ 0 < r.fits

instance (t : Tuning) : Decidable (r.Records t) := by
  unfold Records
  infer_instance

instance (t : Tuning) : Decidable (r.Fitting t) := by
  unfold Fitting
  infer_instance

/-- Some slot fits, and the slots the curve asks for, or those that fit if they
are fewer, are a fraction of the experts that is not `0.00` and at two decimals
is above the fraction that fits by less than half a slot.  Where it is above by
half a slot, the product of doubles has to come out below. -/
def Safe (t : Tuning) : Prop :=
  r.Records t → 0 < r.fits ∧ ∀ slots ∈ r.knee,
    let k := hundredths (double ((min slots r.fits : Nat) / r.nExpert))
    0 < k ∧ (r.nExpert * k < 100 * r.fits + 50 ∨ r.nExpert * k = 100 * r.fits + 50 ∧
      double (r.nExpert * double (k / 100)) < r.fits + 1 / 2)

instance (t : Tuning) : Decidable (r.Safe t) := by
  unfold Safe
  infer_instance

end Report

/-! ## Rounding -/

theorem roundSlots_le_iff {n bound : Nat} {v : ℚ} (nonneg : 0 ≤ v) :
    roundSlots n v ≤ bound ↔ double (double (n * v) + 1 / 2) < bound + 1 := by
  have product : 0 ≤ double (n * v) := nearest_nonneg (by positivity)
  have positive : 0 ≤ double (double (n * v) + 1 / 2) := nearest_nonneg (by linarith)
  rw [roundSlots, truncate, if_pos positive, Int.toNat_le, ← Int.lt_add_one_iff, Int.floor_lt]
  push_cast
  exact Iff.rfl

theorem exact_small {n : Nat} (small : n < 2 ^ 32) : binary64.Exact n :=
  exact_natCast (small.trans (by decide))

theorem exact_small_half {n : Nat} (small : n < 2 ^ 32) : binary64.Exact (n + 1 / 2) := by
  have half : ((2 * n + 1 : Nat) : ℚ) / 2 ^ 1 = n + 1 / 2 := by
    push_cast
    ring
  exact half ▸ exact_shift (lt_of_lt_of_le (by omega : 2 * n + 1 < 2 ^ 33) (by decide)) (by decide)

theorem roundSlots_le_half {n bound : Nat} {v : ℚ} (nonneg : 0 ≤ v) (positive : 0 < bound)
    (small : bound < 2 ^ 31) : roundSlots n v ≤ bound ↔ double (n * v) < bound + 1 / 2 := by
  rw [roundSlots_le_iff nonneg]
  constructor
  · intro below
    by_contra reached
    have next : ((bound + 1 : Nat) : ℚ) ≤ double (double (n * v) + 1 / 2) :=
      le_nearest (exact_small (by omega)) (by push_cast; linarith)
    push_cast at next
    linarith
  · intro below
    rcases lt_or_ge (double (n * v)) bound with lower | upper
    · have half := nearest_le (exact_small_half (n := bound) (by omega))
        (show double (n * v) + 1 / 2 ≤ bound + 1 / 2 by linarith)
      exact lt_of_le_of_lt half (by linarith)
    · rw [double, nearest_add_half positive (small.trans (by decide)) upper below]
      linarith

theorem hundredths_near {q : ℚ} (nonneg : 0 ≤ q) :
    (hundredths q : ℚ) - 1 / 2 ≤ 100 * q ∧ 100 * q ≤ hundredths q + 1 / 2 := by
  have natural : 0 ≤ roundEven (100 * q) := le_roundEven (by push_cast; linarith)
  have same : ((hundredths q : Nat) : ℚ) = roundEven (100 * q) := by
    simp only [hundredths]
    exact_mod_cast Int.toNat_of_nonneg natural
  rw [same]
  exact roundEven_near _

theorem double_near {q : ℚ} (nonneg : 0 ≤ q) (small : q ≤ 1) : |double q - q| ≤ 1 / 2 ^ 53 :=
  (double_error (b := 1) (by rw [abs_of_nonneg nonneg]; linarith)).trans (by norm_num)

/-- The slots of a number of hundredths are those of exact arithmetic, but for a
product that is half a slot away. -/
theorem product_lt_iff {n k bound : Nat} (experts : n < 2 ^ 31) (small : k ≤ 100) :
    double (n * double (k / 100)) < bound + 1 / 2 ↔
      n * k < 100 * bound + 50 ∨ n * k = 100 * bound + 50 ∧
        double (n * double (k / 100)) < bound + 1 / 2 := by
  have share : (k : ℚ) / 100 ≤ 1 := by
    rw [div_le_one (by norm_num)]
    exact_mod_cast small
  have nonneg : 0 ≤ double ((k : ℚ) / 100) := nearest_nonneg (by positivity)
  have atMost : double ((k : ℚ) / 100) ≤ 1 := nearest_le exact_one share
  have count : (0 : ℚ) ≤ n ∧ (n : ℚ) < 2 ^ 31 := ⟨by positivity, by exact_mod_cast experts⟩
  have read : |n * double (k / 100) - n * (k / 100)| ≤ 2 ^ 31 * (1 / 2 ^ 53) := by
    rw [← mul_sub, abs_mul, abs_of_nonneg count.1]
    exact mul_le_mul count.2.le (double_near (by positivity) share) (abs_nonneg _) (by norm_num)
  have range : |n * double (k / 100)| < 2 ^ 31 := by
    rw [abs_of_nonneg (mul_nonneg count.1 nonneg)]
    exact lt_of_le_of_lt (mul_le_of_le_one_right count.1 atMost) count.2
  obtain ⟨low, high⟩ := abs_le.mp read
  obtain ⟨low', high'⟩ := abs_le.mp (double_error (b := 31) range)
  rcases lt_trichotomy (n * k) (100 * bound + 50) with less | tie | more
  · have rational : ((n * k + 1 : Nat) : ℚ) ≤ (100 * bound + 50 : Nat) := by exact_mod_cast less
    push_cast at rational
    refine iff_of_true ?_ (Or.inl less)
    linarith
  · rw [and_iff_right tie, or_iff_right (Nat.not_lt.mpr tie.ge)]
  · have rational : ((100 * bound + 50 + 1 : Nat) : ℚ) ≤ (n * k : Nat) := by exact_mod_cast more
    push_cast at rational
    apply iff_of_false
    · rw [not_lt]
      linarith
    · rintro (less | ⟨tie, -⟩) <;> omega

theorem few_of_zero {n slots : Nat} (experts : 0 < n) (inside : slots ≤ n)
    (zero : hundredths (double ((slots : ℚ) / n)) = 0) : 199 * slots ≤ n := by
  have positive : (0 : ℚ) < n := by exact_mod_cast experts
  have share : (slots : ℚ) / n ≤ 1 := (div_le_one positive).mpr (by exact_mod_cast inside)
  have near := (hundredths_near (q := double ((slots : ℚ) / n)) (nearest_nonneg (by positivity))).2
  have low := (abs_le.mp (double_near (q := (slots : ℚ) / n) (by positivity) share)).1
  rw [zero, Nat.cast_zero] at near
  have less : (slots : ℚ) / n ≤ 1 / 199 := by linarith
  rw [div_le_div_iff₀ positive (by norm_num)] at less
  have rational : (199 * slots : ℚ) ≤ n := by linarith
  exact_mod_cast rational

theorem learn_slots_le_iff {n slots fits k : Nat} (stored : hundredths (double (slots / n)) = k)
    (narrow : n < 2 ^ 31) (positive : 0 < slots) (inside : slots ≤ n) (some : 0 < fits)
    (room : fits ≤ n) (large : slots = fits ∨ n ≤ 16 * slots + 8) :
    (Fraction.learn (double (k / 100))).slots n ≤ fits ↔
      0 < k ∧ (n * k < 100 * fits + 50 ∨ n * k = 100 * fits + 50 ∧
        double (n * double (k / 100)) < fits + 1 / 2) := by
  have experts : (0 : ℚ) < n := by exact_mod_cast positive.trans_le inside
  have share : (slots : ℚ) / n ≤ 1 := (div_le_one experts).mpr (by exact_mod_cast inside)
  have small : k ≤ 100 := stored ▸ hundredths_le (nearest_le exact_one share)
  rw [Fraction.slots]
  rcases Nat.eq_zero_or_pos k with zero | hundredth
  · -- the row holds `0.00`, which the next start replaces by `0.15`
    have fallback : ¬0 < double ((k : ℚ) / 100) :=
      (double_hundredth_pos small).not.mpr (by omega)
    apply iff_of_false
    · have eighth : (1 : ℚ) / 8 ≤ double (15 / 100) := by
        have low := (abs_le.mp (double_near (q := 15 / 100) (by norm_num) (by norm_num))).1
        linarith
      rw [if_neg fallback, roundSlots_le_half (by linarith) some (room.trans_lt narrow), not_lt]
      apply le_nearest (exact_small_half (by omega))
      have less := few_of_zero (positive.trans_le inside) inside (stored.trans zero)
      have many : 8 * fits + 4 ≤ n := by omega
      have rational : ((8 * fits + 4 : Nat) : ℚ) ≤ n := by exact_mod_cast many
      push_cast at rational
      have product := mul_le_mul_of_nonneg_left eighth experts.le
      linarith
    · exact fun both => absurd zero (Nat.ne_of_gt both.1)
  · have read := (double_hundredth_pos small).mpr hundredth
    rw [if_pos read, roundSlots_le_half read.le some (room.trans_lt narrow),
      and_iff_right hundredth]
    exact product_lt_iff narrow small

/-! ## The recommendation -/

namespace Report

variable {r : Report} {t : Tuning}

theorem scan_mem {fractions : List ℚ} {slots : Nat} (found : r.scan fractions = some slots) :
    ∃ fr ∈ fractions.dropLast, slots = r.slotsAt fr := by
  induction fractions with
  | nil => cases found
  | cons fr rest ih =>
      cases rest with
      | nil => cases found
      | cons fr2 rest =>
          simp only [scan] at found
          split at found
          · cases found
            exact ⟨fr, List.mem_cons_self, rfl⟩
          · obtain ⟨fr', listed, same⟩ := ih found
            exact ⟨fr', List.mem_cons_of_mem _ listed, same⟩

/-- The curve never asks for less than a sixteenth of the experts, rounded. -/
theorem knee_bounds {slots : Nat} (found : r.knee = some slots) :
    0 < slots ∧ slots ≤ r.nExpert ∧ r.nExpert ≤ 16 * slots + 8 := by
  obtain ⟨fr, listed, rfl⟩ := scan_mem found
  have range : ∀ fr ∈ grid.reverse.dropLast, 1 / 16 ≤ fr ∧ fr ≤ 1 := by decide +kernel
  obtain ⟨low, high⟩ := range fr listed
  have nonneg : 0 ≤ fr := le_trans (by norm_num) low
  have experts : (0 : ℚ) ≤ r.nExpert := by positivity
  have narrow := r.narrow
  have streamed := r.streamed
  have upper : roundSlots r.nExpert fr ≤ r.nExpert := by
    have share := nearest_le (exact_small (n := r.nExpert) (by omega))
      (mul_le_of_le_one_right experts high)
    exact (roundSlots_le_half nonneg (by omega) narrow).mpr (lt_of_le_of_lt share (by linarith))
  have lower : r.nExpert ≤ 16 * roundSlots r.nExpert fr + 8 := by
    have reached := (roundSlots_le_iff nonneg).mp (le_refl (roundSlots r.nExpert fr))
    have share : (r.nExpert : ℚ) / 2 ^ 4 ≤ double (r.nExpert * fr) := by
      apply le_nearest (exact_shift (narrow.trans (by decide)) (by decide))
      have product := mul_le_mul_of_nonneg_left low experts
      linarith
    have half : ((r.nExpert + 8 : Nat) : ℚ) / 2 ^ 4 ≤ double (double (r.nExpert * fr) + 1 / 2) := by
      apply le_nearest
        (exact_shift (lt_of_lt_of_le (by omega : _ < 2 ^ 32) (by decide)) (by decide))
      push_cast
      linarith
    have rational : ((r.nExpert + 8 : Nat) : ℚ) < 16 * (roundSlots r.nExpert fr + 1 : Nat) := by
      push_cast at half ⊢
      linarith
    have natural : r.nExpert + 8 < 16 * (roundSlots r.nExpert fr + 1) := by exact_mod_cast rational
    omega
  simp only [slotsAt]
  omega

theorem cap_eq (some : 0 < r.fits) (slots : Nat) : r.cap slots = min slots r.fits := by
  simp only [cap]
  split <;> omega

theorem recommended_eq {q : ℚ} (same : r.recommended = some q) :
    ∃ slots, r.knee = some slots ∧ q = double (r.cap slots / r.nExpert) := by
  rw [recommended] at same
  split at same
  · obtain ⟨slots, found, frac⟩ := Option.map_eq_some_iff.mp same
    exact ⟨slots, found, frac.symm⟩
  · cases same

theorem cap_bounds {slots : Nat} (found : r.knee = some slots) :
    0 < r.cap slots ∧ r.cap slots ≤ r.nExpert ∧ (0 < r.fits → r.cap slots ≤ r.fits) := by
  obtain ⟨positive, inside, -⟩ := knee_bounds found
  rw [cap]
  split <;> omega

theorem recommended_valid {q : ℚ} (same : r.recommended = some q) : 0 < q ∧ q ≤ 1 := by
  obtain ⟨slots, found, rfl⟩ := recommended_eq same
  obtain ⟨positive, inside, -⟩ := cap_bounds found
  have streamed := r.streamed
  have narrow := r.narrow
  have experts : (0 : ℚ) < r.nExpert := by exact_mod_cast lt_trans Nat.zero_lt_one streamed
  have share : (r.cap slots : ℚ) / r.nExpert ≤ 1 :=
    (div_le_one experts).mpr (by exact_mod_cast inside)
  refine ⟨?_, nearest_le exact_one share⟩
  -- a slot is more than the least fraction of this many experts
  have least : (1 : ℚ) / 2 ^ 31 ≤ r.cap slots / r.nExpert := by
    have one : (1 : ℚ) ≤ r.cap slots := by exact_mod_cast positive
    have count : (r.nExpert : ℚ) < 2 ^ 31 := by exact_mod_cast narrow
    rw [div_le_div_iff₀ (by norm_num) experts]
    nlinarith
  have exact : binary64.Exact (((1 : Nat) : ℚ) / 2 ^ 31) := exact_shift (by decide) (by decide)
  rw [Nat.cast_one] at exact
  exact lt_of_lt_of_le (by norm_num) (le_nearest exact least)

theorem nextSlots_report {q : ℚ} (learn : r.learn = true) (same : r.recommended = some q)
    (moved : t.Moved r.model r.geometry q) :
    r.nextSlots (r.report t) =
      (Fraction.learn (double (hundredths q / 100))).slots r.nExpert := by
  have stored : r.report t = t.store r.model r.geometry q := by
    simp only [report, same, learn, if_true, Tuning.keep, if_pos moved]
  rw [nextSlots, stored, Tuning.learnedFrac_store (recommended_valid same)]

theorem fits_le (r : Report) : r.fits ≤ r.nExpert := by
  simp only [fits]
  cases r.device with
  | none => exact Nat.zero_le _
  | some m => exact Nat.min_le_right _ _

/-- Of 160 experts 52 are `0.33`, which are 53. -/
example : hundredths (double (52 / 160)) = 33 ∧ roundSlots 160 (double (33 / 100)) = 53 := by
  decide +kernel

/-- A report that asks for all of 512 experts, 16 MiB a slot, on a device of
`total` bytes. -/
def asksAll (total : Nat) : Report where
  model := "moe.gguf".toList
  nExpert := 512
  streamed := by decide
  narrow := by decide
  per := 16777216
  slots := 77
  mrcOn := true
  hist := List.replicate 512 1000
  total := 600000
  device := some ⟨total, 3439329280⟩
  usedPeak := 0
  learn := true

end Report

end MoeStream
