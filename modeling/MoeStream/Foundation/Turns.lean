import Mathlib.Data.List.Induction
import Mathlib.Algebra.Order.Group.Nat

/-!
# Taking turns

Candidates are used in turn, each for a number of calls: which calls of a run
were a candidate's, and how many they are after whole rounds.
-/

set_option autoImplicit false

namespace MoeStream.Foundation.Turns

universe u

variable {α : Type u}

/-- The candidate of the `k`-th call. -/
def turn (period n k : Nat) : Nat := k / period % n

/-- The next turn begins with a call whose number the period divides. -/
theorem turn_succ (period n k : Nat) :
    turn period n (k + 1) =
      if (k + 1) % period = 0 then (turn period n k + 1) % n else turn period n k := by
  have split : (k + 1) / period = k / period + if period ∣ k + 1 then 1 else 0 := Nat.succ_div
  by_cases whole : (k + 1) % period = 0
  · rw [if_pos (Nat.dvd_of_mod_eq_zero whole)] at split
    rw [if_pos whole, turn, turn, split, Nat.mod_add_mod]
  · rw [if_neg fun divides => whole (Nat.mod_eq_zero_of_dvd divides)] at split
    rw [if_neg whole, turn, turn, split, Nat.add_zero]

/-! ## The calls of a candidate -/

/-- The elements at the positions that are `i`'s. -/
def taken (owner : Nat → Nat) (i : Nat) (l : List α) : List α :=
  (l.zipIdx.filter fun p => decide (owner p.2 = i)).map Prod.fst

variable {owner : Nat → Nat} {i : Nat}

@[simp] theorem taken_append (l : List α) (a : α) :
    taken owner i (l ++ [a]) = taken owner i l ++ if owner l.length = i then [a] else [] := by
  rw [taken, taken, List.zipIdx_append, List.filter_append, List.map_append, Nat.zero_add]
  congr 1
  by_cases own : owner l.length = i <;> simp [own]

theorem length_taken (l : List α) :
    (taken owner i l).length = (List.range l.length).countP fun k => decide (owner k = i) := by
  induction l using List.reverseRecOn with
  | nil => rfl
  | append_singleton l a ih =>
      rw [taken_append, List.length_append, ih, List.length_append, List.length_singleton,
        List.range_succ, List.countP_append]
      by_cases own : owner l.length = i <;> simp [own]

/-! ## Whole rounds -/

theorem count_round {period n : Nat} (positive : 0 < period) (some : i < n) :
    (List.range (period * n)).countP (fun k => decide (k / period = i)) = period := by
  induction n with
  | zero => omega
  | succ n ih =>
      rw [Nat.mul_succ, List.range_add, List.countP_append, List.countP_map]
      have last : ∀ j ∈ List.range period,
          ((fun k => decide (k / period = i)) ∘ fun j => period * n + j) j = decide (n = i) := by
        intro j member
        have quotient : (period * n + j) / period = n := by
          rw [Nat.mul_add_div positive, Nat.div_eq_of_lt (List.mem_range.mp member), Nat.add_zero]
        rw [Function.comp_apply, quotient]
      have tail : (List.range period).countP
          ((fun k => decide (k / period = i)) ∘ fun j => period * n + j) =
            if n = i then period else 0 := by
        rw [List.countP_congr fun j member => Bool.eq_iff_iff.mp (last j member)]
        by_cases own : n = i <;> simp [own]
      rw [tail]
      by_cases own : n = i
      · have none : (List.range (period * n)).countP (fun k => decide (k / period = i)) = 0 := by
          rw [List.countP_eq_zero]
          intro k member
          have below := Nat.div_lt_of_lt_mul (List.mem_range.mp member)
          simp only [decide_eq_true_eq]
          omega
        rw [none, if_pos own, Nat.zero_add]
      · rw [ih (by omega), if_neg own, Nat.add_zero]

theorem count_turn {period n : Nat} (positive : 0 < period) (some : i < n) (rounds : Nat) :
    (List.range (period * n * rounds)).countP (fun k => decide (turn period n k = i)) =
      period * rounds := by
  induction rounds with
  | zero => rfl
  | succ rounds ih =>
      rw [Nat.mul_succ, List.range_add, List.countP_append, ih, List.countP_map, Nat.mul_succ]
      congr 1
      refine Eq.trans (List.countP_congr fun j member => ?_) (count_round positive some)
      have inside := Nat.div_lt_of_lt_mul (List.mem_range.mp member)
      have quotient : (period * n * rounds + j) / period = n * rounds + j / period := by
        rw [Nat.mul_assoc, Nat.mul_add_div positive]
      rw [Function.comp_apply, turn, quotient, Nat.mul_add_mod, Nat.mod_eq_of_lt inside]

end MoeStream.Foundation.Turns
