import Mathlib.Algebra.BigOperators.Group.List.Basic
import Mathlib.Algebra.Order.BigOperators.Group.List
import Mathlib.Algebra.Order.Field.Basic
import Mathlib.Data.Nat.Cast.Order.Ring
import Mathlib.Tactic.Linarith
import Mathlib.Tactic.Ring

/-!
# Filling segments by slope

Segments have a slope and a width, and a budget of width is spent on them from
the first on.  When the slopes do not ascend, some price shows that nothing
better can be done: what the fill brings is the price of the budget and what the
segments bring above that price.
-/

set_option autoImplicit false

namespace MoeStream.Foundation.SlopeFill

variable {K : Type} [Field K]

def greedy : Nat → List (K × Nat) → K
  | _, [] => 0
  | budget, (s, n) :: segs => s * ((min n budget : Nat) : K) + greedy (budget - n) segs

@[simp] theorem greedy_zero (segs : List (K × Nat)) : greedy 0 segs = 0 := by
  induction segs with
  | nil => rfl
  | cons sg segs ih => simp [greedy, ih]

variable [LinearOrder K]

def profit (price : K) (segs : List (K × Nat)) : K :=
  (segs.map fun sg => max 0 (sg.1 - price) * (sg.2 : K)).sum

theorem profit_cons (price : K) (sg : K × Nat) (segs : List (K × Nat)) :
    profit price (sg :: segs) = max 0 (sg.1 - price) * (sg.2 : K) + profit price segs := by
  simp [profit]

@[simp] theorem profit_append (price : K) (first second : List (K × Nat)) :
    profit price (first ++ second) = profit price first + profit price second := by
  simp [profit]

theorem profit_perm (price : K) {first second : List (K × Nat)} (perm : first.Perm second) :
    profit price first = profit price second :=
  (perm.map _).sum_eq

variable [IsStrictOrderedRing K]

theorem profit_nonneg (price : K) (segs : List (K × Nat)) : 0 ≤ profit price segs := by
  apply List.sum_nonneg
  intro x member
  obtain ⟨sg, -, rfl⟩ := List.mem_map.mp member
  exact mul_nonneg (le_max_left _ _) (Nat.cast_nonneg _)

/-- At the price zero or above, segments that do not rise bring nothing. -/
theorem profit_filter {price : K} (nonneg : 0 ≤ price) (segs : List (K × Nat)) :
    profit price (segs.filter fun sg => 0 < sg.1) = profit price segs := by
  induction segs with
  | nil => rfl
  | cons sg segs ih =>
      by_cases rises : 0 < sg.1
      · rw [List.filter_cons_of_pos (by simpa using rises), profit_cons, profit_cons, ih]
      · have idle : max 0 (sg.1 - price) = 0 := max_eq_left (by linarith)
        rw [List.filter_cons_of_neg (by simpa using rises), profit_cons, ih, idle]
        ring

theorem profit_dear {price : K} {segs : List (K × Nat)} (dear : ∀ sg ∈ segs, sg.1 ≤ price) :
    profit price segs = 0 := by
  apply List.sum_eq_zero
  intro x member
  obtain ⟨sg, inside, rfl⟩ := List.mem_map.mp member
  rw [max_eq_left (sub_nonpos.mpr (dear sg inside)), zero_mul]

/-- The price is the slope at which the budget ends, or zero if it does not. -/
theorem greedy_price {segs : List (K × Nat)} (order : segs.Pairwise fun sg sg' => sg'.1 ≤ sg.1)
    (nonneg : ∀ sg ∈ segs, 0 ≤ sg.1) (budget : Nat) :
    ∃ price : K, 0 ≤ price ∧ (∀ t, 0 ≤ t → (∀ sg ∈ segs, sg.1 ≤ t) → price ≤ t) ∧
      profit price segs + price * budget ≤ greedy budget segs := by
  induction segs generalizing budget with
  | nil =>
      refine ⟨0, le_refl _, fun t above _ => above, ?_⟩
      simp [profit, greedy]
  | cons sg segs ih =>
      obtain ⟨s, n⟩ := sg
      obtain ⟨least, later⟩ := List.pairwise_cons.mp order
      have rise : 0 ≤ s := nonneg (s, n) List.mem_cons_self
      by_cases ends : budget ≤ n
      · -- the budget ends inside this segment
        refine ⟨s, rise, fun t _ bound => bound (s, n) List.mem_cons_self, ?_⟩
        have dear : ∀ sg ∈ (s, n) :: segs, sg.1 ≤ s := by
          intro sg member
          rcases List.mem_cons.mp member with rfl | rest
          · exact le_refl _
          · exact least sg rest
        simp only [greedy]
        rw [profit_dear dear, Nat.min_eq_right ends, Nat.sub_eq_zero_of_le ends, greedy_zero]
        linarith
      · obtain ⟨price, above, bound, enough⟩ :=
          ih later (fun sg member => nonneg sg (List.mem_cons_of_mem _ member)) (budget - n)
        have cheap : price ≤ s := bound s rise least
        refine ⟨price, above, fun t zero bounds => bound t zero fun sg member =>
          bounds sg (List.mem_cons_of_mem _ member), ?_⟩
        have within : n ≤ budget := Nat.le_of_not_le ends
        have rest : ((budget - n : Nat) : K) = budget - n := Nat.cast_sub within
        simp only [greedy]
        rw [profit_cons, max_eq_right (sub_nonneg.mpr cheap), Nat.min_eq_left within]
        rw [rest] at enough
        linarith

end MoeStream.Foundation.SlopeFill
