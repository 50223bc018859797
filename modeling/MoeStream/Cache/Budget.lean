import Mathlib.Algebra.Order.Group.MinMax
import MoeStream.Cache.Runs
import MoeStream.Foundation.Apportion

/-!
# The budget of the quotas

The quotas are to sum to the number of slots, each between `quota_min` and the
number of experts.  They start so; a reallocation in exact arithmetic keeps them
so exactly when its two clamps leave room for the rescaling.  They do where the
slots, shared in proportion to the quotas that the ghost hits ask for, stay in
the range.
-/

set_option autoImplicit false

namespace MoeStream

open Foundation.Apportion
open Foundation.FixedWidth

namespace ExpertCache

variable {c : ExpertCache}

/-- The quotas sum to the number of slots, and each is in its range. -/
structure Budgeted (c : ExpertCache) : Prop where
  sum : ∑ l ∈ Finset.range c.cfg.nLayer, c.quota l = c.nSlot
  range : ∀ l, l < c.cfg.nLayer → c.cfg.quotaMin ≤ c.quota l ∧ c.quota l ≤ c.cfg.nExpert

/-- There are slots for all the least quotas and experts for all slots, and
arithmetic is exact. -/
structure Affordable (c : ExpertCache) : Prop where
  exact : ∀ q, c.cfg.round q = q
  least : c.cfg.nLayer * c.cfg.quotaMin ≤ c.nSlot
  most : c.nSlot ≤ c.cfg.nLayer * c.cfg.nExpert
  slots : c.nSlot ≤ NO_SLOT

/-! ## The steps of a reallocation -/

def ghostMean (c : ExpertCache) : ℚ :=
  (∑ l ∈ Finset.range c.cfg.nLayer, ((c.lay l).ghostHits : ℚ)) / c.cfg.nLayer

def quotaDelta (c : ExpertCache) (l : Nat) : ℚ :=
  c.cfg.quotaEta * ((c.lay l).ghostHits - c.ghostMean) / c.ghostMean * c.quota l

def steppedQuota (c : ExpertCache) (l : Nat) : Int :=
  min (max ((c.quota l : Int) +
    truncate (c.quotaDelta l + if 0 ≤ c.quotaDelta l then 1 / 2 else -1 / 2)) c.cfg.quotaMin)
    c.cfg.nExpert

def steppedSum (c : ExpertCache) : Int := ∑ l ∈ Finset.range c.cfg.nLayer, c.steppedQuota l

def quotaShare (c : ExpertCache) (l : Nat) : Int :=
  share c.cfg.nLayer c.steppedQuota c.nSlot l

def shareSum (c : ExpertCache) : Int := ∑ l ∈ Finset.range c.cfg.nLayer, c.quotaShare l

def scaledQuota (c : ExpertCache) (l : Nat) : Int :=
  max c.cfg.quotaMin (truncate (c.steppedQuota l * (c.nSlot / (c.steppedSum : ℚ))))

def scaledSum (c : ExpertCache) : Int := ∑ l ∈ Finset.range c.cfg.nLayer, c.scaledQuota l

def filledQuota (c : ExpertCache) : Nat → Int :=
  deal c.cfg.nLayer (c.nSlot - c.scaledSum).toNat 0 c.scaledQuota

theorem fillQuota_eq (n m l : Nat) (nq : Nat → Int) : fillQuota n m l nq = deal n m l nq := by
  induction m generalizing l nq with
  | zero => rfl
  | succ m ih => rw [fillQuota, deal, ih]

theorem handRemainder_eq (n r l : Nat) (quota : Nat → Nat) :
    handRemainder n r l quota = deal n r l quota := by
  induction r generalizing l quota with
  | zero => rfl
  | succ r ih => rw [handRemainder, deal, ih]

theorem rebalanceQuota_idle (exact : ∀ q, c.cfg.round q = q) (idle : c.ghostMean ≤ 0) :
    c.rebalanceQuota = c.clearGhostHits := by
  simp only [rebalanceQuota, exact]
  exact if_pos idle

theorem rebalanceQuota_eq (exact : ∀ q, c.cfg.round q = q) (hits : 0 < c.ghostMean) :
    c.rebalanceQuota =
      { c.clearGhostHits with quota := fun l => u32 (c.filledQuota l).toNat } := by
  have moves : ¬c.ghostMean ≤ 0 := not_le.mpr hits
  rw [filledQuota, ← fillQuota_eq]
  simp only [rebalanceQuota, exact]
  exact if_neg moves

/-- The two clamps leave room: where the slots are shared among smaller quotas none is to
pass the number of experts, and where they are shared among larger ones those raised to the
least quota take no more than rounding left. -/
structure Rescales (c : ExpertCache) : Prop where
  grown : c.steppedSum < c.nSlot → ∀ l, l < c.cfg.nLayer →
    c.quotaShare l + (if (l : Int) < c.nSlot - c.shareSum then 1 else 0) ≤ c.cfg.nExpert
  shrunk : (c.nSlot : Int) < c.steppedSum →
    ∑ l ∈ Finset.range c.cfg.nLayer, max (c.cfg.quotaMin : Int) (c.quotaShare l) ≤ c.nSlot

theorem Affordable.min_le (affordable : c.Affordable) {l : Nat} (layer : l < c.cfg.nLayer) :
    c.cfg.quotaMin ≤ c.cfg.nExpert :=
  Nat.le_of_mul_le_mul_left (affordable.least.trans affordable.most) (Nat.zero_lt_of_lt layer)

theorem steppedQuota_range (affordable : c.Affordable) {l : Nat} (layer : l < c.cfg.nLayer) :
    (c.cfg.quotaMin : Int) ≤ c.steppedQuota l ∧ c.steppedQuota l ≤ c.cfg.nExpert := by
  have room : (c.cfg.quotaMin : Int) ≤ c.cfg.nExpert := by
    exact_mod_cast affordable.min_le layer
  exact ⟨le_min (le_max_right _ _) room, min_le_right _ _⟩

theorem steppedQuota_nonneg (affordable : c.Affordable) :
    ∀ l, l < c.cfg.nLayer → 0 ≤ c.steppedQuota l :=
  fun _ layer => le_trans (Int.natCast_nonneg _) (steppedQuota_range affordable layer).1

theorem steppedSum_nonneg (affordable : c.Affordable) : 0 ≤ c.steppedSum :=
  Finset.sum_nonneg fun l member =>
    steppedQuota_nonneg affordable l (Finset.mem_range.mp member)

theorem scaledQuota_eq (affordable : c.Affordable) {l : Nat} (layer : l < c.cfg.nLayer) :
    c.scaledQuota l = max (c.cfg.quotaMin : Int) (c.quotaShare l) := by
  have weight : (0 : ℚ) ≤ c.steppedQuota l := by
    exact_mod_cast steppedQuota_nonneg affordable l layer
  have sum : (0 : ℚ) ≤ (c.steppedSum : ℚ) := by
    exact_mod_cast steppedSum_nonneg affordable
  have whole : truncate (c.steppedQuota l * (c.nSlot / (c.steppedSum : ℚ))) = c.quotaShare l :=
    if_pos (mul_nonneg weight (div_nonneg (Nat.cast_nonneg _) sum))
  rw [scaledQuota, whole]

theorem scaledSum_eq (affordable : c.Affordable) :
    c.scaledSum = ∑ l ∈ Finset.range c.cfg.nLayer, max (c.cfg.quotaMin : Int) (c.quotaShare l) :=
  Finset.sum_congr rfl fun _ member => scaledQuota_eq affordable (Finset.mem_range.mp member)

/-- Raised to the least quota, the shares sum to more than the slots less the layers. -/
theorem nSlot_lt_scaledSum (affordable : c.Affordable) (positive : 0 < c.steppedSum) :
    (c.nSlot : Int) < c.scaledSum + c.cfg.nLayer := by
  have shares : (c.nSlot : Int) <
      ∑ l ∈ Finset.range c.cfg.nLayer, c.quotaShare l + c.cfg.nLayer := (sum_share positive).2
  have above : ∑ l ∈ Finset.range c.cfg.nLayer, c.quotaShare l ≤ c.scaledSum := by
    rw [scaledSum_eq affordable]
    exact Finset.sum_le_sum fun l _ => le_max_right _ _
  linarith

theorem filledQuota_eq (affordable : c.Affordable) (positive : 0 < c.steppedSum)
    {l : Nat} (layer : l < c.cfg.nLayer) :
    c.filledQuota l = max (c.cfg.quotaMin : Int) (c.quotaShare l) +
      if (l : Int) < c.nSlot - c.scaledSum then 1 else 0 := by
  have few := nSlot_lt_scaledSum affordable positive
  have short : (c.nSlot - c.scaledSum).toNat < c.cfg.nLayer := by omega
  rw [filledQuota, deal_eq layer, Nat.div_eq_of_lt short, Nat.mod_eq_of_lt short,
    scaledQuota_eq affordable layer, Nat.zero_add]
  by_cases leading : (l : Int) < c.nSlot - c.scaledSum
  · rw [if_pos leading, if_pos (by omega), Nat.cast_one]
  · rw [if_neg leading, if_neg (by omega), Nat.cast_zero]

theorem filledQuota_zero (affordable : c.Affordable) (none : c.steppedSum = 0)
    {l : Nat} (layer : l < c.cfg.nLayer) :
    c.cfg.quotaMin = 0 ∧ c.quotaShare l = 0 ∧ c.scaledSum = 0 ∧
      c.filledQuota l =
        (c.nSlot / c.cfg.nLayer + if l < c.nSlot % c.cfg.nLayer then 1 else 0 : Nat) := by
  have each : ∀ k ∈ Finset.range c.cfg.nLayer, c.steppedQuota k = 0 :=
    (Finset.sum_eq_zero_iff_of_nonneg fun k member =>
      steppedQuota_nonneg affordable k (Finset.mem_range.mp member)).mp none
  have least : c.cfg.quotaMin = 0 := by
    have low := (steppedQuota_range affordable layer).1
    rw [each l (Finset.mem_range.mpr layer)] at low
    omega
  have shares : ∀ k ∈ Finset.range c.cfg.nLayer, c.quotaShare k = 0 := by
    intro k member
    rw [quotaShare, share, each k member, Int.cast_zero, zero_mul, Int.floor_zero]
  have scaled : c.scaledSum = 0 := by
    rw [scaledSum_eq affordable]
    refine Finset.sum_eq_zero fun k member => ?_
    rw [least, shares k member]
    rfl
  refine ⟨least, shares l (Finset.mem_range.mpr layer), scaled, ?_⟩
  rw [filledQuota, scaled, sub_zero, Int.toNat_natCast, deal_eq layer,
    scaledQuota_eq affordable layer, least, shares l (Finset.mem_range.mpr layer)]
  simp

theorem Rescales.of_zero (affordable : c.Affordable) (none : c.steppedSum = 0) : c.Rescales := by
  refine ⟨fun some l layer => ?_, fun some => ?_⟩
  · obtain ⟨-, share, -, -⟩ := filledQuota_zero affordable none layer
    rw [none] at some
    have experts : 0 < c.cfg.nExpert := by
      by_contra zero
      have most := affordable.most
      rw [Nat.eq_zero_of_not_pos zero, Nat.mul_zero] at most
      omega
    rw [share]
    split_ifs <;> omega
  · rw [none] at some
    omega

/-- Where the quotas grow to the slots no share is below its quota, so the second clamp does
nothing. -/
theorem fills_grown (affordable : c.Affordable) (positive : 0 < c.steppedSum)
    (grows : c.steppedSum ≤ c.nSlot) :
    c.scaledSum = c.shareSum ∧ c.scaledSum ≤ c.nSlot ∧ ∀ l, l < c.cfg.nLayer →
      c.filledQuota l = c.quotaShare l + if (l : Int) < c.nSlot - c.shareSum then 1 else 0 := by
  have raised : ∀ l, l < c.cfg.nLayer →
      max (c.cfg.quotaMin : Int) (c.quotaShare l) = c.quotaShare l := by
    intro l layer
    refine max_eq_right (le_trans (steppedQuota_range affordable layer).1 ?_)
    exact le_share positive (steppedQuota_nonneg affordable l layer) grows
  have same : c.scaledSum = c.shareSum := by
    rw [scaledSum_eq affordable]
    exact Finset.sum_congr rfl fun l member => raised l (Finset.mem_range.mp member)
  refine ⟨same, ?_, fun l layer => ?_⟩
  · rw [same]
    exact (sum_share positive).1
  · rw [filledQuota_eq affordable positive layer, raised l layer, same]

theorem fills_shrunk (affordable : c.Affordable) (shrinks : (c.nSlot : Int) < c.steppedSum)
    {l : Nat} (layer : l < c.cfg.nLayer) :
    max (c.cfg.quotaMin : Int) (c.quotaShare l) + 1 ≤ c.cfg.nExpert := by
  have positive : 0 < c.steppedSum := lt_of_le_of_lt (Int.natCast_nonneg _) shrinks
  have high : c.steppedSum ≤ c.cfg.nLayer * c.cfg.nExpert := by
    have each := Finset.sum_le_sum fun k (member : k ∈ Finset.range c.cfg.nLayer) =>
      (steppedQuota_range affordable (Finset.mem_range.mp member)).2
    rwa [Finset.sum_const, Finset.card_range, nsmul_eq_mul] at each
  have least : (c.cfg.quotaMin : Int) + 1 ≤ c.cfg.nExpert := by
    by_contra none
    have same : c.cfg.quotaMin = c.cfg.nExpert := by
      have le := affordable.min_le layer
      omega
    have low := affordable.least
    rw [same] at low
    have low' : (c.cfg.nLayer * c.cfg.nExpert : Int) ≤ c.nSlot := by exact_mod_cast low
    linarith
  have range := steppedQuota_range affordable layer
  rw [← max_add_add_right]
  refine max_le least ?_
  rcases (steppedQuota_nonneg affordable l layer).lt_or_eq with some | zero
  · have below : c.quotaShare l < c.steppedQuota l := share_lt some shrinks
    omega
  · have none : c.quotaShare l = 0 := by
      rw [quotaShare, share, ← zero, Int.cast_zero, zero_mul, Int.floor_zero]
    omega

/-- The total is kept and no quota passes the number of experts exactly when the clamps
leave room. -/
theorem fills_iff (affordable : c.Affordable) (some : 0 < c.cfg.nLayer) :
    (c.scaledSum ≤ c.nSlot ∧ ∀ l, l < c.cfg.nLayer → c.filledQuota l ≤ c.cfg.nExpert) ↔
      c.Rescales := by
  rcases (steppedSum_nonneg affordable).lt_or_eq with positive | zero
  · rcases lt_trichotomy c.steppedSum (c.nSlot : Int) with grows | same | shrinks
    · obtain ⟨-, fits, filled⟩ := fills_grown affordable positive grows.le
      constructor
      · rintro ⟨-, most⟩
        refine ⟨fun _ l layer => ?_, fun shrinks => absurd shrinks (not_lt.mpr grows.le)⟩
        rw [← filled l layer]
        exact most l layer
      · intro rescales
        refine ⟨fits, fun l layer => ?_⟩
        rw [filled l layer]
        exact rescales.grown grows l layer
    · obtain ⟨-, fits, filled⟩ := fills_grown affordable positive same.le
      refine iff_of_true ⟨fits, fun l layer => ?_⟩
        ⟨fun grows => absurd grows same.not_lt, fun shrinks => absurd shrinks same.not_gt⟩
      have kept : ∀ k, k < c.cfg.nLayer → c.quotaShare k = c.steppedQuota k := fun k inside =>
        le_antisymm (share_le positive (steppedQuota_nonneg affordable k inside) same.ge)
          (le_share positive (steppedQuota_nonneg affordable k inside) same.le)
      have sum : c.shareSum = c.nSlot := by
        rw [← same]
        exact Finset.sum_congr rfl fun k member => kept k (Finset.mem_range.mp member)
      rw [filled l layer, sum, kept l layer, if_neg (by omega), add_zero]
      exact (steppedQuota_range affordable layer).2
    · constructor
      · rintro ⟨fits, -⟩
        refine ⟨fun grows => absurd grows (not_lt.mpr shrinks.le), fun _ => ?_⟩
        rw [← scaledSum_eq affordable]
        exact fits
      · intro rescales
        refine ⟨?_, fun l layer => ?_⟩
        · rw [scaledSum_eq affordable]
          exact rescales.shrunk shrinks
        · have room := fills_shrunk affordable shrinks layer
          rw [filledQuota_eq affordable positive layer]
          split_ifs <;> omega
  · refine iff_of_true ⟨?_, fun l layer => ?_⟩ (Rescales.of_zero affordable zero.symm)
    · obtain ⟨-, -, scaled, -⟩ := filledQuota_zero affordable zero.symm some
      rw [scaled]
      exact Int.natCast_nonneg _
    · obtain ⟨-, -, -, filled⟩ := filledQuota_zero affordable zero.symm layer
      rw [filled]
      exact_mod_cast (even_range affordable.least affordable.most layer).2

theorem filledQuota_ge (affordable : c.Affordable) {l : Nat} (layer : l < c.cfg.nLayer) :
    (c.cfg.quotaMin : Int) ≤ c.filledQuota l := by
  rw [filledQuota, deal_eq layer, scaledQuota_eq affordable layer]
  exact le_trans (le_max_left _ _) (le_add_of_nonneg_right (Int.natCast_nonneg _))

theorem sum_filledQuota (some : 0 < c.cfg.nLayer) :
    ∑ l ∈ Finset.range c.cfg.nLayer, c.filledQuota l = max c.scaledSum c.nSlot := by
  rw [filledQuota, sum_deal some]
  change c.scaledSum + ((c.nSlot - c.scaledSum).toNat : Int) = _
  omega

theorem filledQuota_le (affordable : c.Affordable) {l : Nat} (layer : l < c.cfg.nLayer) :
    c.filledQuota l ≤ c.nSlot := by
  have nonneg : ∀ k ∈ Finset.range c.cfg.nLayer, 0 ≤ c.filledQuota k := fun k member =>
    le_trans (Int.natCast_nonneg _) (filledQuota_ge affordable (Finset.mem_range.mp member))
  have part := Finset.single_le_sum nonneg (Finset.mem_range.mpr layer)
  rw [sum_filledQuota (Nat.zero_lt_of_lt layer)] at part
  rcases le_or_gt c.scaledSum c.nSlot with fits | drifts
  · rwa [max_eq_right fits] at part
  · -- nothing was dealt, and a share of the slots is not more than the slots
    have none : (c.nSlot - c.scaledSum).toNat = 0 := by omega
    have positive : 0 < c.steppedSum := by
      by_contra zero
      have empty := le_antisymm (not_lt.mp zero) (steppedSum_nonneg affordable)
      obtain ⟨-, -, scaled, -⟩ := filledQuota_zero affordable empty layer
      omega
    have weights := steppedQuota_nonneg affordable
    have shares : c.quotaShare l ≤ c.shareSum :=
      Finset.single_le_sum (fun k member => share_nonneg weights (Finset.mem_range.mp member))
        (Finset.mem_range.mpr layer)
    have total : c.shareSum ≤ c.nSlot := (sum_share positive).1
    have least : (c.cfg.quotaMin : Int) ≤ c.nSlot := by
      have low := le_trans (Nat.le_mul_of_pos_left _ (Nat.zero_lt_of_lt layer)) affordable.least
      exact_mod_cast low
    rw [filledQuota, none, deal, scaledQuota_eq affordable layer]
    exact max_le least (shares.trans total)

theorem rebalanced_quota (affordable : c.Affordable) (hits : 0 < c.ghostMean) {l : Nat}
    (layer : l < c.cfg.nLayer) : (c.rebalanceQuota.quota l : Int) = c.filledQuota l := by
  have low := le_trans (Int.natCast_nonneg _) (filledQuota_ge affordable layer)
  have high := filledQuota_le affordable layer
  have slots := affordable.slots
  rw [rebalanceQuota_eq affordable.exact hits]
  dsimp only
  rw [u32_eq (by unfold NO_SLOT at slots; omega), Int.toNat_of_nonneg low]

/-- A reallocation keeps the budget exactly when its clamps leave room. -/
theorem Budgeted.rebalance_iff (budgeted : c.Budgeted) (affordable : c.Affordable) :
    c.rebalanceQuota.Budgeted ↔ (0 < c.ghostMean → c.Rescales) := by
  have cfg : c.rebalanceQuota.cfg = c.cfg := by
    simp only [ExpertCache.rebalanceQuota]
    split <;> rfl
  have nSlot : c.rebalanceQuota.nSlot = c.nSlot := by
    simp only [ExpertCache.rebalanceQuota]
    split <;> rfl
  rcases le_or_gt c.ghostMean 0 with idle | hits
  · refine iff_of_true ?_ fun hits => absurd hits (not_lt.mpr idle)
    rw [rebalanceQuota_idle affordable.exact idle]
    exact ⟨budgeted.sum, budgeted.range⟩
  · have some : 0 < c.cfg.nLayer := by
      by_contra none
      rw [ghostMean, Nat.eq_zero_of_not_pos none, Nat.cast_zero, div_zero] at hits
      exact absurd hits (lt_irrefl 0)
    have quota : ∀ l, l < c.cfg.nLayer → (c.rebalanceQuota.quota l : Int) = c.filledQuota l :=
      fun l layer => rebalanced_quota affordable hits layer
    have sum : ((∑ l ∈ Finset.range c.cfg.nLayer, c.rebalanceQuota.quota l : Nat) : Int) =
        max c.scaledSum c.nSlot := by
      rw [← sum_filledQuota some, Nat.cast_sum]
      exact Finset.sum_congr rfl fun l member => quota l (Finset.mem_range.mp member)
    have asked : (0 < c.ghostMean → c.Rescales) ↔ c.Rescales :=
      ⟨fun rescales => rescales hits, fun rescales _ => rescales⟩
    rw [asked, ← fills_iff affordable some]
    constructor
    · intro kept
      have total := kept.sum
      have range := kept.range
      rw [cfg, nSlot] at total
      rw [cfg] at range
      refine ⟨?_, fun l layer => ?_⟩
      · rw [total] at sum
        omega
      · rw [← quota l layer]
        exact_mod_cast (range l layer).2
    · rintro ⟨fits, most⟩
      refine ⟨?_, fun l layer => ?_⟩
      · rw [cfg, nSlot]
        rw [max_eq_right fits] at sum
        exact_mod_cast sum
      · rw [cfg] at layer ⊢
        have low := filledQuota_ge affordable layer
        have high := most l layer
        rw [← quota l layer] at low high
        exact ⟨by exact_mod_cast low, by exact_mod_cast high⟩

/-! ## Moved quotas -/

def movedQuota (c : ExpertCache) (l : Nat) : ℚ :=
  min (max (c.quota l + c.quotaDelta l) c.cfg.quotaMin) c.cfg.nExpert

/-- Whole numbers nearest to the moved quotas, either one where there are two. -/
def Nearest (c : ExpertCache) (v : Nat → Int) : Prop :=
  ∀ l, l < c.cfg.nLayer → |(v l : ℚ) - c.movedQuota l| ≤ 1 / 2

/-- The slots can be shared in proportion to the moved quotas, taken in whole
numbers: where there are fewer slots no share is below the least quota, and where
there are more every share is below the number of experts. -/
structure Clear (c : ExpertCache) : Prop where
  low : ∀ v, c.Nearest v → (c.nSlot : Int) < ∑ l ∈ Finset.range c.cfg.nLayer, v l →
    ∀ l, l < c.cfg.nLayer →
      c.cfg.quotaMin * ∑ k ∈ Finset.range c.cfg.nLayer, v k ≤ v l * c.nSlot
  high : ∀ v, c.Nearest v → ∑ l ∈ Finset.range c.cfg.nLayer, v l < c.nSlot →
    ∀ l, l < c.cfg.nLayer →
      v l * c.nSlot < c.cfg.nExpert * ∑ k ∈ Finset.range c.cfg.nLayer, v k

theorem Nearest.eq_of_whole {v : Nat → Int} (nearest : c.Nearest v) {l : Nat}
    (layer : l < c.cfg.nLayer) {k : Int} (whole : c.movedQuota l = k) : v l = k := by
  have near := nearest l layer
  rw [whole, ← Int.cast_sub, ← Int.cast_abs] at near
  have less : ((|v l - k| : Int) : ℚ) < 1 := by linarith
  exact Int.eq_of_sub_eq_zero (Int.abs_lt_one_iff.mp (by exact_mod_cast less))

/-- A state in which the moves are of whole slots, and keep the total, is clear. -/
theorem Clear.of_whole {w : Nat → Int} (whole : ∀ l, l < c.cfg.nLayer → c.movedQuota l = w l)
    (total : ∑ l ∈ Finset.range c.cfg.nLayer, w l = c.nSlot) : c.Clear := by
  have sum : ∀ v, c.Nearest v → ∑ l ∈ Finset.range c.cfg.nLayer, v l = c.nSlot := by
    intro v nearest
    rw [← total]
    refine Finset.sum_congr rfl fun l member => ?_
    exact nearest.eq_of_whole (Finset.mem_range.mp member) (whole l (Finset.mem_range.mp member))
  exact ⟨fun v nearest more => absurd (sum v nearest) more.ne',
    fun v nearest less => absurd (sum v nearest) less.ne⟩

theorem truncate_half_near (q : ℚ) :
    |(truncate (q + if 0 ≤ q then 1 / 2 else -1 / 2) : ℚ) - q| ≤ 1 / 2 := by
  rw [truncate, abs_le]
  by_cases nonneg : 0 ≤ q
  · rw [if_pos nonneg, if_pos (by linarith)]
    have low := Int.floor_le (q + 1 / 2)
    have high := Int.lt_floor_add_one (q + 1 / 2)
    constructor <;> linarith
  · rw [if_neg nonneg, if_neg (by linarith [not_le.mp nonneg])]
    have low := Int.le_ceil (q + -1 / 2)
    have high := Int.ceil_lt_add_one (q + -1 / 2)
    constructor <;> linarith

theorem clamp_near (a b low high : ℚ) :
    |min (max a low) high - min (max b low) high| ≤ |a - b| := by
  have outer := abs_min_sub_min_le_max (max a low) high (max b low) high
  rw [sub_self, abs_zero, max_eq_left (abs_nonneg (max a low - max b low))] at outer
  exact outer.trans (abs_max_sub_max_le_abs a b low)

theorem steppedQuota_near (l : Nat) : |(c.steppedQuota l : ℚ) - c.movedQuota l| ≤ 1 / 2 := by
  rw [steppedQuota, movedQuota]
  push_cast
  refine (clamp_near _ _ _ _).trans ?_
  rw [add_sub_add_left_eq_sub]
  exact truncate_half_near _

/-- In a clear state the second clamp has nothing to do, and there is room for what is left. -/
theorem Clear.rescales (clear : c.Clear) (affordable : c.Affordable) : c.Rescales := by
  have nearest : c.Nearest c.steppedQuota := fun l _ => steppedQuota_near l
  rcases (steppedSum_nonneg affordable).lt_or_eq with positive | zero
  · constructor
    · intro grows l layer
      have room : c.steppedQuota l * c.nSlot < c.cfg.nExpert * c.steppedSum :=
        clear.high _ nearest grows l layer
      have below : ¬(c.cfg.nExpert : Int) ≤ c.quotaShare l := by
        rw [quotaShare, le_share_iff positive, not_le]
        exact_mod_cast room
      split_ifs <;> omega
    · intro shrinks
      have raised : ∀ l ∈ Finset.range c.cfg.nLayer,
          max (c.cfg.quotaMin : Int) (c.quotaShare l) = c.quotaShare l := by
        intro l member
        have room : c.cfg.quotaMin * c.steppedSum ≤ c.steppedQuota l * c.nSlot :=
          clear.low _ nearest shrinks l (Finset.mem_range.mp member)
        apply max_eq_right
        rw [quotaShare, le_share_iff positive]
        exact_mod_cast room
      rw [Finset.sum_congr rfl raised]
      exact (sum_share positive).1
  · exact Rescales.of_zero affordable zero.symm

/-! ## Runs -/

theorem init_quota (cfg : Config) : (init cfg).quota =
    deal cfg.nLayer ((init cfg).nSlot % cfg.nLayer) 0 fun _ => (init cfg).nSlot / cfg.nLayer := by
  have rest : (init cfg).nSlot - (init cfg).nSlot / cfg.nLayer * cfg.nLayer =
      (init cfg).nSlot % cfg.nLayer := by
    have split := Nat.div_add_mod (init cfg).nSlot cfg.nLayer
    rw [Nat.mul_comm] at split
    omega
  rw [← rest, ← handRemainder_eq]
  rfl

theorem init_budgeted (cfg : Config) (affordable : (init cfg).Affordable) :
    (init cfg).Budgeted := by
  have quota := init_quota cfg
  refine ⟨?_, fun l layer => ?_⟩
  · change ∑ l ∈ Finset.range cfg.nLayer, (init cfg).quota l = (init cfg).nSlot
    rcases Nat.eq_zero_or_pos cfg.nLayer with none | some
    · have most : (init cfg).nSlot ≤ cfg.nLayer * cfg.nExpert := affordable.most
      rw [none, Nat.zero_mul] at most
      rw [none, Finset.sum_range_zero, Nat.le_zero.mp most]
    · rw [quota, sum_deal some, Finset.sum_const, Finset.card_range, nsmul_eq_mul,
        Nat.cast_id, Nat.cast_id]
      exact Nat.div_add_mod _ _
  · have inside : l < cfg.nLayer := layer
    have less : (init cfg).nSlot % cfg.nLayer < cfg.nLayer :=
      Nat.mod_lt _ (Nat.zero_lt_of_lt inside)
    rw [quota, deal_eq inside, Nat.div_eq_of_lt less, Nat.mod_eq_of_lt less, Nat.zero_add]
    exact even_range affordable.least affordable.most layer

def Triggers (c : ExpertCache) : Prop :=
  c.cfg.layerQuotaAdapt = true ∧ u32 (c.step + 1) % c.cfg.quotaPeriod = 0

/-- The reallocations of a run start without ghost hits or in clear states. -/
def Spared (cfg : Config) (ops : List Op) : Prop :=
  ∀ before after, ops = before ++ .endStep :: after → ((init cfg).run before).Triggers →
    0 < ((init cfg).run before).ghostMean → ((init cfg).run before).Clear

theorem spared_last {cfg : Config} {ops : List Op} (earlier : ∀ op ∈ ops, op ≠ .endStep)
    (clear : ((init cfg).run ops).Triggers → 0 < ((init cfg).run ops).ghostMean →
      ((init cfg).run ops).Clear) : Spared cfg (ops ++ [.endStep]) := by
  intro before after split
  rcases List.append_eq_append_iff.mp split with ⟨more, rfl, rest⟩ | ⟨more, rfl, rest⟩
  · have none : more = [] := by
      have length := congrArg List.length rest
      simp only [List.length_append, List.length_cons, List.length_nil] at length
      exact List.length_eq_zero_iff.mp (by omega)
    rw [none, List.append_nil]
    exact clear
  · cases more with
    | nil =>
        rw [List.append_nil] at clear
        exact clear
    | cons first more =>
        obtain ⟨rfl, -⟩ := List.cons.inj rest
        exact absurd rfl (earlier _ (List.mem_append_right _ List.mem_cons_self))

theorem Budgeted.endStep_iff (budgeted : c.Budgeted) (affordable : c.Affordable)
    (triggers : c.Triggers) :
    c.endStep.Budgeted ↔ (0 < c.ghostMean → c.Rescales) := by
  have stepped : c.endStep = ({ c with step := u32 (c.step + 1) } : ExpertCache).rebalanceQuota :=
    if_pos triggers
  have same : ({ c with step := u32 (c.step + 1) } : ExpertCache).Budgeted :=
    ⟨budgeted.sum, budgeted.range⟩
  rw [stepped, same.rebalance_iff
    ⟨affordable.exact, affordable.least, affordable.most, affordable.slots⟩]
  refine forall_congr' fun _ => ⟨fun fits => ⟨fits.grown, fits.shrunk⟩, fun fits => ?_⟩
  exact ⟨fits.grown, fits.shrunk⟩

theorem endStep_quiet (quiet : ¬c.Triggers) :
    c.endStep = { c with step := u32 (c.step + 1) } := if_neg quiet

theorem run_affordable {cfg : Config} {ops : List Op} (affordable : (init cfg).Affordable)
    (inRange : ∀ op ∈ ops, op.InRange cfg) : ((init cfg).run ops).Affordable := by
  obtain ⟨-, kept, nSlot, -⟩ := (init_ok cfg).run ops inRange
  refine ⟨?_, ?_, ?_, ?_⟩
  · rw [kept]
    exact affordable.exact
  · rw [kept, nSlot]
    exact affordable.least
  · rw [kept, nSlot]
    exact affordable.most
  · rw [nSlot]
    exact affordable.slots

theorem budgeted_run (cfg : Config) (affordable : (init cfg).Affordable) (ops : List Op)
    (inRange : ∀ op ∈ ops, op.InRange cfg) (spared : Spared cfg ops) :
    ((init cfg).run ops).Budgeted := by
  induction ops using List.reverseRecOn with
  | nil => exact init_budgeted cfg affordable
  | append_singleton ops op ih =>
      have earlier : ∀ op ∈ ops, op.InRange cfg := fun op member =>
        inRange op (List.mem_append_left _ member)
      have before := ih earlier fun first rest split =>
        spared first (rest ++ [op]) (by rw [split, List.append_assoc, List.cons_append])
      obtain ⟨ok, kept, -, -⟩ := (init_ok cfg).run ops earlier
      have valid : op.InRange ((init cfg).run ops).cfg := by
        rw [kept]
        exact inRange op (List.mem_append_right _ (List.mem_singleton_self op))
      have applied := ok.apply op valid
      have run : (init cfg).run (ops ++ [op]) = ((init cfg).run ops).apply op := by
        rw [ExpertCache.run, List.foldl_append]
        rfl
      have now := run_affordable affordable earlier
      rw [run]
      -- only a reallocation can move a quota
      by_cases ends : op = .endStep
      · subst ends
        by_cases triggers : ((init cfg).run ops).Triggers
        · exact (before.endStep_iff now triggers).mpr fun hits =>
            (spared ops [] rfl triggers hits).rescales now
        · change ((init cfg).run ops).endStep.Budgeted
          rw [endStep_quiet triggers]
          exact ⟨before.sum, before.range⟩
      · have quota := ok.apply_quota_other op valid ends
        refine ⟨?_, fun l layer => ?_⟩
        · rw [quota, applied.cfg, applied.nSlot]
          exact before.sum
        · rw [applied.cfg] at layer ⊢
          rw [quota]
          exact before.range l layer

/-- Four layers with a quota of one each, the least there is. -/
def leastQuotas : Config :=
  { nLayer := 4, nExpert := 3, nSlot := 4, quotaPeriod := 1, quotaEta := 1 / 2, quotaMin := 1,
    round := id }

def ghostHit : List Op :=
  [.acquire 0 0 .demand, .release 0 0, .acquire 0 1 .demand, .acquire 0 0 .demand]

theorem ghostHit_inRange : ∀ op ∈ ghostHit, op.InRange leastQuotas := by
  intro op member
  simp only [ghostHit, List.mem_cons, List.not_mem_nil, or_false] at member
  rcases member with rfl | rfl | rfl | rfl <;> exact ⟨by decide, by decide⟩

def roomyQuotas : Config :=
  { nLayer := 2, nExpert := 8, nSlot := 8, quotaPeriod := 1, quotaEta := 1 / 2, quotaMin := 1,
    round := id }

/-- Experts 0 to 4 of layer 0 are used, which evicts expert 0, and it is asked for again. -/
def roomyHit : List Op :=
  (List.range 5).flatMap (fun e => [.acquire 0 e .demand, .release 0 e]) ++
    [.acquire 0 0 .demand]

theorem roomyHit_acquires : ∀ op ∈ roomyHit, op ≠ .endStep ∧ op.InRange roomyQuotas := by
  have small : ∀ e, e < 5 → e < roomyQuotas.nExpert := fun e less => less.trans (by decide)
  intro op member
  rcases List.mem_append.mp member with used | last
  · obtain ⟨e, listed, own⟩ := List.mem_flatMap.mp used
    have expert := small e (List.mem_range.mp listed)
    simp only [List.mem_cons, List.not_mem_nil, or_false] at own
    rcases own with rfl | rfl <;> exact ⟨nofun, by decide, expert⟩
  · rw [List.mem_singleton.mp last]
    exact ⟨nofun, by decide, by decide⟩

end ExpertCache

end MoeStream
