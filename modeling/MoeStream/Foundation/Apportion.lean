import Mathlib.Data.Int.CardIntervalMod
import Mathlib.Algebra.BigOperators.Field
import Mathlib.Algebra.Order.BigOperators.Group.Finset
import Mathlib.Tactic.Linarith

/-!
# Apportioning a total

Shares in proportion to weights, rounded down, and what is left dealt out in
turns.
-/

set_option autoImplicit false

namespace MoeStream.Foundation.Apportion

universe u

/-! ## Dealing -/

section Deal

variable {Amount : Type u} [AddCommMonoidWithOne Amount]

/-- `m` units, one each to `l`, `l + 1` and so on, in a circle of `n`. -/
def deal (n : Nat) : Nat → Nat → (Nat → Amount) → Nat → Amount
  | 0, _, f => f
  | m + 1, l, f => deal n m (l + 1) (Function.update f (l % n) (f (l % n) + 1))

theorem deal_count (n m l : Nat) (f : Nat → Amount) (k : Nat) :
    deal n m l f k = f k + (Nat.count (fun i => (l + i) % n = k) m : Nat) := by
  induction m generalizing l f with
  | zero => rw [deal, Nat.count_zero, Nat.cast_zero, add_zero]
  | succ m ih =>
      have shift : (fun i => (l + 1 + i) % n = k) = fun i => (l + (i + 1)) % n = k := by
        funext i
        rw [Nat.add_assoc, Nat.add_comm 1 i]
      rw [deal, ih, Nat.count_succ', Nat.cast_add]
      by_cases own : l % n = k
      · rw [if_pos (by rw [Nat.add_zero]; exact own)]
        subst own
        simp only [shift, Function.update_self, Nat.cast_one]
        rw [add_right_comm, ← add_assoc]
      · rw [if_neg (by rw [Nat.add_zero]; exact own)]
        simp only [shift, Function.update_of_ne (Ne.symm own), Nat.cast_zero, add_zero]

theorem deal_eq {n k : Nat} (inside : k < n) (m : Nat) (f : Nat → Amount) :
    deal n m 0 f k = f k + (m / n + if k < m % n then 1 else 0 : Nat) := by
  have turn : (fun i => (0 + i) % n = k) = fun i => i ≡ k [MOD n] := by
    funext i
    rw [Nat.zero_add, Nat.ModEq, Nat.mod_eq_of_lt inside]
  have counted := Nat.count_modEq_card m (Nat.zero_lt_of_lt inside) k
  rw [Nat.mod_eq_of_lt inside] at counted
  rw [deal_count, ← counted]
  simp only [turn]

theorem sum_deal {n : Nat} (some : 0 < n) (m l : Nat) (f : Nat → Amount) :
    ∑ k ∈ Finset.range n, deal n m l f k = ∑ k ∈ Finset.range n, f k + m := by
  induction m generalizing l f with
  | zero => rw [deal, Nat.cast_zero, add_zero]
  | succ m ih =>
      have member : l % n ∈ Finset.range n := Finset.mem_range.mpr (Nat.mod_lt l some)
      have split := Finset.add_sum_erase (Finset.range n) f member
      have rest : ∑ k ∈ (Finset.range n).erase (l % n),
          Function.update f (l % n) (f (l % n) + 1) k =
            ∑ k ∈ (Finset.range n).erase (l % n), f k :=
        Finset.sum_congr rfl fun k other =>
          Function.update_of_ne (Finset.ne_of_mem_erase other) _ _
      rw [deal, ih, ← Finset.add_sum_erase (Finset.range n) _ member, Function.update_self, rest,
        ← split, Nat.cast_succ]
      rw [add_right_comm (f (l % n)), add_assoc _ 1, add_comm 1]

theorem even_range {n total least most k : Nat} (low : n * least ≤ total)
    (high : total ≤ n * most) (inside : k < n) :
    least ≤ total / n + (if k < total % n then 1 else 0) ∧
      total / n + (if k < total % n then 1 else 0) ≤ most := by
  have some := Nat.zero_lt_of_lt inside
  have above : least ≤ total / n := (Nat.le_div_iff_mul_le some).mpr (by rwa [Nat.mul_comm])
  have below : total / n ≤ most := Nat.div_le_of_le_mul high
  have split := Nat.div_add_mod total n
  refine ⟨le_trans above (Nat.le_add_right _ _), ?_⟩
  rcases Nat.lt_or_ge (total / n) most with room | full
  · split_ifs <;> omega
  · rw [le_antisymm below full] at split ⊢
    rw [if_neg (by omega)]
    exact le_refl most

end Deal

/-! ## Shares -/

section Shares

variable {n total : Nat} {weight : Nat → Int}

def share (n : Nat) (weight : Nat → Int) (total l : Nat) : Int :=
  ⌊(weight l : ℚ) * (total / ((∑ k ∈ Finset.range n, weight k : Int) : ℚ))⌋

theorem sum_exact (positive : 0 < ∑ k ∈ Finset.range n, weight k) :
    ∑ l ∈ Finset.range n,
      (weight l : ℚ) * (total / ((∑ k ∈ Finset.range n, weight k : Int) : ℚ)) = total := by
  have some : ((∑ k ∈ Finset.range n, weight k : Int) : ℚ) ≠ 0 := by
    exact_mod_cast positive.ne'
  rw [← Finset.sum_mul, ← Int.cast_sum]
  field_simp

theorem sum_share (positive : 0 < ∑ k ∈ Finset.range n, weight k) :
    ∑ l ∈ Finset.range n, share n weight total l ≤ total ∧
      (total : Int) < ∑ l ∈ Finset.range n, share n weight total l + n := by
  have exact : ∑ l ∈ Finset.range n,
      (weight l : ℚ) * (total / ((∑ k ∈ Finset.range n, weight k : Int) : ℚ)) = total :=
    sum_exact positive
  have some : (Finset.range n).Nonempty := by
    by_contra none
    rw [Finset.not_nonempty_iff_eq_empty.mp none, Finset.sum_empty] at positive
    exact absurd positive (lt_irrefl 0)
  constructor
  · have low : ((∑ l ∈ Finset.range n, share n weight total l : Int) : ℚ) ≤ total := by
      rw [← exact, Int.cast_sum]
      exact Finset.sum_le_sum fun l _ => Int.floor_le _
    exact_mod_cast low
  · have high : (total : ℚ) < ((∑ l ∈ Finset.range n, share n weight total l : Int) : ℚ) + n := by
      have each : ∑ l ∈ Finset.range n,
          (weight l : ℚ) * (total / ((∑ k ∈ Finset.range n, weight k : Int) : ℚ)) <
            ∑ l ∈ Finset.range n, ((share n weight total l : ℚ) + 1) :=
        Finset.sum_lt_sum_of_nonempty some fun l _ => Int.lt_floor_add_one _
      rw [exact, Finset.sum_add_distrib, Finset.sum_const, Finset.card_range, nsmul_one] at each
      rw [Int.cast_sum]
      exact each
    exact_mod_cast high

variable {l : Nat}

theorem le_share (positive : 0 < ∑ k ∈ Finset.range n, weight k) (nonneg : 0 ≤ weight l)
    (grows : ∑ k ∈ Finset.range n, weight k ≤ total) : weight l ≤ share n weight total l := by
  have some : (0 : ℚ) < ((∑ k ∈ Finset.range n, weight k : Int) : ℚ) := by exact_mod_cast positive
  have factor : (1 : ℚ) ≤ total / ((∑ k ∈ Finset.range n, weight k : Int) : ℚ) := by
    rw [one_le_div some]
    exact_mod_cast grows
  exact Int.le_floor.mpr (le_mul_of_one_le_right (by exact_mod_cast nonneg) factor)

theorem share_le (positive : 0 < ∑ k ∈ Finset.range n, weight k) (nonneg : 0 ≤ weight l)
    (shrinks : (total : Int) ≤ ∑ k ∈ Finset.range n, weight k) :
    share n weight total l ≤ weight l := by
  have some : (0 : ℚ) < ((∑ k ∈ Finset.range n, weight k : Int) : ℚ) := by exact_mod_cast positive
  have factor : total / ((∑ k ∈ Finset.range n, weight k : Int) : ℚ) ≤ 1 := by
    rw [div_le_one some]
    exact_mod_cast shrinks
  have low := mul_le_of_le_one_right (a := (weight l : ℚ)) (by exact_mod_cast nonneg) factor
  have close : (share n weight total l : ℚ) ≤ weight l := (Int.floor_le _).trans low
  exact_mod_cast close

theorem le_share_iff (positive : 0 < ∑ k ∈ Finset.range n, weight k) (least : Int) :
    least ≤ share n weight total l ↔
      (least : ℚ) * ((∑ k ∈ Finset.range n, weight k : Int) : ℚ) ≤ weight l * total := by
  have some : (0 : ℚ) < ((∑ k ∈ Finset.range n, weight k : Int) : ℚ) := by exact_mod_cast positive
  rw [share, Int.le_floor, ← mul_div_assoc, le_div_iff₀ some]

theorem share_lt (positive : 0 < weight l)
    (shrinks : (total : Int) < ∑ k ∈ Finset.range n, weight k) :
    share n weight total l < weight l := by
  have sum : 0 < ∑ k ∈ Finset.range n, weight k := lt_of_le_of_lt (Int.natCast_nonneg total) shrinks
  have some : (0 : ℚ) < ((∑ k ∈ Finset.range n, weight k : Int) : ℚ) := by exact_mod_cast sum
  have factor : total / ((∑ k ∈ Finset.range n, weight k : Int) : ℚ) < 1 := by
    rw [div_lt_one some]
    exact_mod_cast shrinks
  exact Int.floor_lt.mpr (mul_lt_of_lt_one_right (by exact_mod_cast positive) factor)

theorem share_nonneg (weights : ∀ k, k < n → 0 ≤ weight k) (inside : l < n) :
    0 ≤ share n weight total l := by
  have sum : (0 : ℚ) ≤ ((∑ k ∈ Finset.range n, weight k : Int) : ℚ) := by
    exact_mod_cast Finset.sum_nonneg fun k member => weights k (Finset.mem_range.mp member)
  refine Int.floor_nonneg.mpr (mul_nonneg ?_ (div_nonneg (Nat.cast_nonneg _) sum))
  exact_mod_cast weights l inside

end Shares

end MoeStream.Foundation.Apportion
