import Mathlib.Tactic.FieldSimp
import Mathlib.Tactic.Linarith
import MoeStream.Loader.DenseSubstitutes

/-!
# The automatic split

What `dense_claim` decides from the memory of the device: the room that is left
beside everything but the FFN and beside the arena is divided by the average
layer and rounded to the nearest number of layers.
-/

set_option autoImplicit false

namespace MoeStream.Dense

open Foundation
open Foundation.FixedWidth

/-- `dense_streamed_layer`, unless the dense path is off. -/
def Claims.Streamed (d : Claims) (il : Int) : Prop := 0 ≤ d.nlayer ∧ 0 ≤ d.first ∧ d.first ≤ il

instance (d : Claims) (il : Int) : Decidable (d.Streamed il) := by
  unfold Claims.Streamed
  infer_instance

/-- After the decision a weight is claimed when its layer is streamed. -/
theorem denseClaim_streamed {z : Setting} {t : DenseTensor} {place : Int × Role} (n : Nat)
    (candidate : z.candidate t = true) (named : parseDenseAny t.name t.nbytes = some place) :
    (z.denseClaim (z.decideSplit n {}) t).2 = true ↔ (z.decideSplit n {}).Streamed place.1 := by
  have decided : z.decideSplit t.nbytes (z.decideSplit n {}) =
      { z.decideSplit n {} with
        nlayer := (z.decideSplit n {}).nlayer
        first := (z.decideSplit n {}).first } := decideSplit_done (decideSplit_ne n)
  rw [denseClaim_candidate candidate decided, Setting.streams, if_pos candidate, named,
    Option.filter_some]
  by_cases streamed : 0 ≤ (z.decideSplit n {}).nlayer ∧ 0 ≤ (z.decideSplit n {}).first ∧
      (z.decideSplit n {}).first ≤ place.1
  · rw [if_pos (decide_eq_true streamed)]
    exact iff_of_true rfl streamed
  · rw [if_neg fun holds => streamed (of_decide_eq_true holds)]
    exact iff_of_false Bool.false_ne_true streamed

/-- A dense model that can be read, in auto mode and exact arithmetic, with what
the device reports: total and used memory. -/
structure AutoModel extends Setting where
  total : ℚ
  used : ℚ
  automatic : auto = true
  dense : nExpert ≤ 0
  layered : 0 < nLayer
  reading : deviceMem = some (total, used)
  exact : ∀ q, round q = q

namespace AutoModel

variable (m : AutoModel) (n : Nat)

/-- The size of the FFN in GiB; `n` is the size of the first weight, for an index
that could not be read. -/
def ffn : ℚ :=
  if m.scanTotal ≠ 0 then m.scanTotal / 1073741824 else 3 * m.nLayer * n / 1073741824

def nonffn : ℚ := max 0 (m.fileGib - m.ffn n)

def layer : ℚ := m.ffn n / m.nLayer

def budget : ℚ := m.total - m.reserve - m.used

/-- What is resident with `k` layers: everything but the FFN, the layers and the
arena. -/
def resident (k : Nat) : ℚ := m.nonffn n + k * m.layer n + m.nbuf * m.layer n

def room : ℚ := m.budget - m.nonffn n - m.nbuf * m.layer n

def decided : Claims := m.decideSplit n {}

def kept : Nat :=
  ((List.range m.nLayer.toNat).filter fun il : Nat =>
    !decide ((m.decided n).Streamed (il : Int))).length

/-- A model that fits is left alone, and of another as many layers are kept as
fit. -/
structure LeastSplit : Prop where
  alone : m.nonffn n + m.ffn n ≤ m.budget → ∀ il : Int, 0 ≤ il → il < m.nLayer →
    ¬(m.decided n).Streamed il
  fits : m.budget < m.nonffn n + m.ffn n → m.resident n 0 ≤ m.budget →
    m.resident n (m.kept n) ≤ m.budget
  least : m.budget < m.nonffn n + m.ffn n → m.budget < m.resident n (m.kept n + 1)

/-- The room is short of the whole FFN by at most half a layer if the model fits
without the arena, and exceeds whole layers by less than half a layer if not. -/
def RoundsDown : Prop :=
  (m.nonffn n + m.ffn n ≤ m.budget → m.ffn n ≤ m.room n + m.layer n / 2) ∧
    (m.budget < m.nonffn n + m.ffn n → 0 ≤ m.room n →
      ∃ k : Nat, k * m.layer n ≤ m.room n ∧ m.room n < k * m.layer n + m.layer n / 2)

variable {m n}

theorem layers_pos : (0 : ℚ) < m.nLayer := by exact_mod_cast m.layered

theorem ffn_nonneg : 0 ≤ m.ffn n := by
  have layers := m.layers_pos
  simp only [ffn]
  split <;> positivity

theorem layer_nonneg : 0 ≤ m.layer n := div_nonneg ffn_nonneg layers_pos.le

theorem ffn_eq : m.ffn n = m.nLayer * m.layer n := by
  have layers := m.layers_pos
  simp only [layer]
  field_simp

theorem fits_iff (k : Nat) : m.resident n k ≤ m.budget ↔ k * m.layer n ≤ m.room n := by
  simp only [resident, room]
  constructor <;> intro le <;> linarith

theorem exceeds_iff (k : Nat) : m.budget < m.resident n k ↔ m.room n < k * m.layer n := by
  simp only [resident, room]
  constructor <;> intro lt <;> linarith

theorem autoFrac_eq :
    m.autoFrac n = if 0 < m.ffn n then max 0 (min 1 (m.room n / m.ffn n)) else 1 := by
  simp only [Setting.autoFrac, Setting.ffnGib, m.reading, m.exact]
  rfl

/-- Off when the FFN and the arena fit together, or there is no FFN. -/
theorem off_iff : 1 ≤ m.autoFrac n ↔ m.ffn n = 0 ∨ m.ffn n ≤ m.room n := by
  rw [autoFrac_eq]
  split
  · rename_i positive
    rw [le_max_iff, le_min_iff, one_le_div positive]
    constructor
    · rintro (one | ⟨-, fits⟩)
      · exact absurd one (by norm_num)
      · exact Or.inr fits
    · rintro (zero | fits)
      · exact absurd zero positive.ne'
      · exact Or.inr ⟨le_refl 1, fits⟩
  · rename_i none
    exact iff_of_true (le_refl 1) (Or.inl (le_antisymm (not_lt.mp none) ffn_nonneg))

theorem nearest_layers (on : ¬(m.ffn n = 0 ∨ m.ffn n ≤ m.room n)) :
    min m.nLayer (max 0 (truncate (m.round (m.round (m.autoFrac n * m.nLayer) + 1 / 2)))) =
      ⌊max 0 (m.room n / m.layer n) + 1 / 2⌋ := by
  obtain ⟨some, short⟩ := not_or.mp on
  have positive : 0 < m.ffn n := lt_of_le_of_ne ffn_nonneg (Ne.symm some)
  have layers := m.layers_pos
  have less : m.room n / m.ffn n < 1 := (div_lt_one positive).mpr (not_le.mp short)
  have share : m.autoFrac n * m.nLayer = max 0 (m.room n / m.layer n) := by
    rw [autoFrac_eq, if_pos positive, min_eq_right less.le, max_mul_of_nonneg _ _ layers.le,
      zero_mul]
    congr 1
    simp only [layer]
    field_simp
  have low : 0 ≤ max 0 (m.room n / m.layer n) := le_max_left _ _
  have high : max 0 (m.room n / m.layer n) < m.nLayer := by
    rw [← share, autoFrac_eq, if_pos positive]
    have below : max 0 (min 1 (m.room n / m.ffn n)) < 1 :=
      max_lt (by norm_num) (lt_of_le_of_lt (min_le_right _ _) less)
    nlinarith
  have floor : truncate (max 0 (m.room n / m.layer n) + 1 / 2) =
      ⌊max 0 (m.room n / m.layer n) + 1 / 2⌋ := if_pos (by positivity)
  have nonneg : 0 ≤ ⌊max 0 (m.room n / m.layer n) + 1 / 2⌋ := Int.floor_nonneg.mpr (by positivity)
  have bounded : ⌊max 0 (m.room n / m.layer n) + 1 / 2⌋ < m.nLayer + 1 := by
    rw [Int.floor_lt]
    push_cast
    linarith
  rw [m.exact, m.exact, share, floor, max_eq_right nonneg, min_eq_right (by omega)]

theorem decided_eq : m.decided n =
    if m.ffn n = 0 ∨ m.ffn n ≤ m.room n then { nlayer := -1 }
    else { nlayer := m.nLayer, first := ⌊max 0 (m.room n / m.layer n) + 1 / 2⌋ } := by
  have readable : ¬(0 < m.nExpert ∨ m.nLayer ≤ 0) := by
    have dense := m.dense
    have layered := m.layered
    omega
  unfold decided Setting.decideSplit Setting.resolve
  rw [if_neg (by decide), if_neg readable, m.automatic]
  dsimp only
  rw [if_pos rfl]
  by_cases off : m.ffn n = 0 ∨ m.ffn n ≤ m.room n
  · rw [if_pos (off_iff.mpr off), if_pos off]
  · rw [if_neg fun one => off (off_iff.mp one), if_neg off, nearest_layers off]

theorem streamed_iff (il : Int) : (m.decided n).Streamed il ↔
    ¬(m.ffn n = 0 ∨ m.ffn n ≤ m.room n) ∧ ⌊max 0 (m.room n / m.layer n) + 1 / 2⌋ ≤ il := by
  have layered := m.layered
  have nonneg : 0 ≤ ⌊max 0 (m.room n / m.layer n) + 1 / 2⌋ :=
    Int.floor_nonneg.mpr (by positivity)
  rw [decided_eq, Claims.Streamed]
  by_cases off : m.ffn n = 0 ∨ m.ffn n ≤ m.room n
  · rw [if_pos off]
    exact iff_of_false (fun on => absurd on.1 (by decide)) fun on => on.1 off
  · rw [if_neg off]
    exact ⟨fun on => ⟨off, on.2.2⟩, fun on => ⟨layered.le, nonneg, on.2⟩⟩

theorem length_filter_range {p : Nat → Bool} {n k : Nat} (le : k ≤ n)
    (below : ∀ i, i < n → (p i = true ↔ i < k)) : ((List.range n).filter p).length = k := by
  obtain ⟨j, rfl⟩ := Nat.exists_eq_add_of_le le
  have front : (List.range k).filter p = List.range k := by
    apply List.filter_eq_self.mpr
    intro i member
    have small := List.mem_range.mp member
    exact (below i (by omega)).mpr small
  have back : ((List.range j).map fun i => k + i).filter p = [] := by
    apply List.filter_eq_nil_iff.mpr
    intro i member kept
    obtain ⟨i', listed, rfl⟩ := List.mem_map.mp member
    have small := List.mem_range.mp listed
    have less := (below _ (by omega)).mp kept
    omega
  rw [List.range_add, List.filter_append, front, back, List.append_nil, List.length_range]

/-- Unless the path is off, the layers before the first streamed one are kept. -/
theorem kept_on (on : ¬(m.ffn n = 0 ∨ m.ffn n ≤ m.room n)) :
    (m.kept n : Int) = ⌊max 0 (m.room n / m.layer n) + 1 / 2⌋ := by
  have bounded := nearest_layers on
  have nonneg : 0 ≤ ⌊max 0 (m.room n / m.layer n) + 1 / 2⌋ :=
    Int.floor_nonneg.mpr (by positivity)
  have streamed := fun il => m.streamed_iff (n := n) il
  generalize ⌊max 0 (m.room n / m.layer n) + 1 / 2⌋ = q at *
  have most : q ≤ m.nLayer := bounded ▸ min_le_left _ _
  simp only [kept]
  rw [length_filter_range (k := q.toNat) (by omega)]
  · omega
  · intro i small
    rw [Bool.not_eq_true', decide_eq_false_iff_not, streamed]
    constructor
    · intro kept
      by_contra late
      exact kept ⟨on, by omega⟩
    · intro early both
      omega

/-- A nearest whole number is not above `x` when the rest is less than a half. -/
theorem floor_half_le {x : ℚ} (nonneg : 0 ≤ x) :
    ((⌊x + 1 / 2⌋ : Int) : ℚ) ≤ x ↔ ∃ k : Nat, (k : ℚ) ≤ x ∧ x < k + 1 / 2 := by
  have low := Int.floor_le (x + 1 / 2)
  have high := Int.lt_floor_add_one (x + 1 / 2)
  constructor
  · intro le
    have positive : 0 ≤ ⌊x + 1 / 2⌋ := Int.floor_nonneg.mpr (by linarith)
    obtain ⟨k, whole⟩ := Int.eq_ofNat_of_zero_le positive
    rw [whole] at le high
    exact ⟨k, by exact_mod_cast le, by push_cast at high; linarith⟩
  · rintro ⟨k, le, lt⟩
    have whole : ⌊x + 1 / 2⌋ = (k : Int) := by
      rw [Int.floor_eq_iff]
      push_cast
      constructor <;> linarith
    rw [whole]
    exact_mod_cast le

theorem leastSplit_off (off : m.ffn n = 0 ∨ m.ffn n ≤ m.room n) :
    m.LeastSplit n ∧ m.RoundsDown n := by
  have thin := layer_nonneg (m := m) (n := n)
  have arena : 0 ≤ m.nbuf * m.layer n := mul_nonneg (Nat.cast_nonneg _) thin
  have room : m.room n = m.budget - m.nonffn n - m.nbuf * m.layer n := rfl
  have alone : ∀ il : Int, 0 ≤ il → il < m.nLayer → ¬(m.decided n).Streamed il :=
    fun il _ _ on => ((streamed_iff il).mp on).1 off
  rcases off with none | fits
  · have flat : m.layer n = 0 := by rw [layer, none, zero_div]
    refine ⟨⟨fun _ => alone, fun exceeds fits => ?_, fun exceeds => ?_⟩, fun fits => ?_,
      fun exceeds fits => ?_⟩
    · rw [resident, flat] at fits
      linarith
    · rw [resident, flat]
      linarith
    · rw [room, none, flat]
      linarith
    · rw [room, flat] at fits
      linarith
  · have whole : m.nonffn n + m.ffn n ≤ m.budget := by linarith
    refine ⟨⟨fun _ => alone, fun exceeds => absurd exceeds (not_lt.mpr whole),
      fun exceeds => absurd exceeds (not_lt.mpr whole)⟩, fun _ => ?_,
      fun exceeds => absurd exceeds (not_lt.mpr whole)⟩
    linarith

theorem layer_pos (on : ¬(m.ffn n = 0 ∨ m.ffn n ≤ m.room n)) : 0 < m.layer n := by
  have some := (not_or.mp on).1
  exact div_pos (lt_of_le_of_ne ffn_nonneg (Ne.symm some)) layers_pos

/-- Every layer is kept when rounding reaches the number of layers. -/
theorem alone_iff (on : ¬(m.ffn n = 0 ∨ m.ffn n ≤ m.room n)) :
    (∀ il : Int, 0 ≤ il → il < m.nLayer → ¬(m.decided n).Streamed il) ↔
      m.ffn n ≤ m.room n + m.layer n / 2 := by
  have positive := layer_pos on
  have layered : (1 : ℚ) ≤ m.nLayer := by exact_mod_cast m.layered
  have nonneg : 0 ≤ ⌊max 0 (m.room n / m.layer n) + 1 / 2⌋ :=
    Int.floor_nonneg.mpr (by positivity)
  have reaches : m.nLayer ≤ ⌊max 0 (m.room n / m.layer n) + 1 / 2⌋ ↔
      m.ffn n ≤ m.room n + m.layer n / 2 := by
    rw [Int.le_floor, ← sub_le_iff_le_add, le_max_iff, or_iff_right (by linarith),
      le_div_iff₀ positive, ffn_eq]
    constructor <;> intro le <;> linarith
  rw [← reaches]
  constructor
  · intro alone
    by_contra early
    exact alone _ nonneg (not_le.mp early) ((streamed_iff _).mpr ⟨on, le_refl _⟩)
  · intro all il _ inside streamed
    have late := ((streamed_iff il).mp streamed).2
    omega

theorem keptFits_iff (on : ¬(m.ffn n = 0 ∨ m.ffn n ≤ m.room n)) (room : 0 ≤ m.room n) :
    m.resident n (m.kept n) ≤ m.budget ↔
      ∃ k : Nat, k * m.layer n ≤ m.room n ∧ m.room n < k * m.layer n + m.layer n / 2 := by
  have positive := layer_pos on
  have share : 0 ≤ m.room n / m.layer n := div_nonneg room positive.le
  have kept : (m.kept n : ℚ) = (⌊m.room n / m.layer n + 1 / 2⌋ : Int) := by
    rw [← max_eq_right share, ← kept_on on]
    rfl
  rw [fits_iff, kept, ← le_div_iff₀ positive, floor_half_le share]
  refine exists_congr fun k => ?_
  rw [le_div_iff₀ positive, div_lt_iff₀ positive, add_mul]
  exact and_congr_right fun _ => by rw [one_div, inv_mul_eq_div]

theorem nextExceeds (on : ¬(m.ffn n = 0 ∨ m.ffn n ≤ m.room n)) :
    m.budget < m.resident n (m.kept n + 1) := by
  have positive := layer_pos on
  have below := Int.lt_floor_add_one (max 0 (m.room n / m.layer n) + 1 / 2)
  have most : m.room n / m.layer n ≤ max 0 (m.room n / m.layer n) := le_max_right _ _
  have kept : (m.kept n : ℚ) = (⌊max 0 (m.room n / m.layer n) + 1 / 2⌋ : Int) := by
    rw [← kept_on on]
    rfl
  rw [exceeds_iff, ← div_lt_iff₀ positive]
  push_cast
  rw [kept]
  linarith

/-- The split streams the least that fits exactly when it does not round up. -/
theorem leastSplit_iff : m.LeastSplit n ↔ m.RoundsDown n := by
  by_cases off : m.ffn n = 0 ∨ m.ffn n ≤ m.room n
  · exact iff_of_true (leastSplit_off off).1 (leastSplit_off off).2
  · have start : m.resident n 0 ≤ m.budget ↔ 0 ≤ m.room n := by
      rw [fits_iff, Nat.cast_zero, zero_mul]
    constructor
    · intro split
      refine ⟨fun fits => (alone_iff off).mp (split.alone fits), fun exceeds room => ?_⟩
      exact (keptFits_iff off room).mp (split.fits exceeds (start.mpr room))
    · rintro ⟨whole, rest⟩
      refine ⟨fun fits => (alone_iff off).mpr (whole fits), fun exceeds room => ?_,
        fun _ => nextExceeds off⟩
      exact (keptFits_iff off (start.mp room)).mpr (rest exceeds (start.mp room))

/-- Four layers of one GiB in a file of ten, and a budget of ten. -/
def tight : AutoModel where
  enabled := true
  auto := true
  frac := 1
  nbuf := 2
  threads := 1
  nExpert := 0
  nLayer := 4
  scanTotal := 4 * 2 ^ 30
  fileGib := 10
  deviceMem := some (12, 0)
  reserve := 2
  buffered := by decide
  round := id
  total := 12
  used := 0
  automatic := rfl
  dense := le_refl 0
  layered := by decide
  reading := rfl
  exact := fun _ => rfl

/-- The model fits, and two of its layers are streamed. -/
theorem tight_streams : ¬tight.LeastSplit (2 ^ 28) := by
  have ffn : tight.ffn (2 ^ 28) = 4 := by norm_num [AutoModel.ffn, tight]
  have layer : tight.layer (2 ^ 28) = 1 := by
    rw [AutoModel.layer, ffn]
    norm_num [tight]
  have nonffn : tight.nonffn (2 ^ 28) = 6 := by
    rw [AutoModel.nonffn, ffn]
    norm_num [tight]
  have budget : tight.budget = 10 := by norm_num [AutoModel.budget, tight]
  have room : tight.room (2 ^ 28) = 2 := by
    rw [AutoModel.room, budget, nonffn, layer]
    norm_num [tight]
  intro split
  have on : ¬(tight.ffn (2 ^ 28) = 0 ∨ tight.ffn (2 ^ 28) ≤ tight.room (2 ^ 28)) := by
    rw [ffn, room]
    norm_num
  have fits := (alone_iff on).mp (split.alone (by rw [nonffn, ffn, budget]; norm_num))
  rw [ffn, room, layer] at fits
  norm_num at fits

end AutoModel

end MoeStream.Dense
