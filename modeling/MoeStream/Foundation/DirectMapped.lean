import Mathlib.Data.List.Induction
import Mathlib.Data.List.Range
import Mathlib.Data.Nat.ModEq
import Mathlib.Logic.Function.Basic

/-!
# A direct-mapped store

Each element has one buffer it may be in.  An access of an element that is not
in its buffer loads it there.  What the buffers hold is the last element that
was accessed for each; what is loaded is counted for accesses that go round.
-/

set_option autoImplicit false

namespace MoeStream.Foundation.DirectMapped

universe u v

variable {α : Type u} {β : Type v} [DecidableEq α] [DecidableEq β] (buf : α → β)

abbrev Store (α : Type u) (β : Type v) := (β → Option α) × List α

def touch (s : Store α β) (a : α) : Store α β :=
  if s.1 (buf a) = some a then s else (Function.update s.1 (buf a) (some a), s.2 ++ [a])

def touches (l : List α) : Store α β := l.foldl (touch buf) (fun _ => none, [])

/-- The last of the accesses to a buffer. -/
def held (l : List α) (b : β) : Option α := (l.filter fun a => decide (buf a = b)).getLast?

variable {buf}

theorem touch_hit {s : Store α β} {a : α} (hit : s.1 (buf a) = some a) : touch buf s a = s :=
  if_pos hit

theorem touch_miss {s : Store α β} {a : α} (miss : s.1 (buf a) ≠ some a) :
    touch buf s a = (Function.update s.1 (buf a) (some a), s.2 ++ [a]) := if_neg miss

@[simp] theorem touch_self (s : Store α β) (a : α) : (touch buf s a).1 (buf a) = some a := by
  by_cases hit : s.1 (buf a) = some a
  · rw [touch_hit hit, hit]
  · rw [touch_miss hit]
    exact Function.update_self _ _ _

@[simp] theorem touch_touch (s : Store α β) (a : α) : touch buf (touch buf s a) a = touch buf s a :=
  touch_hit (touch_self s a)

omit [DecidableEq α] in
theorem held_append (l l' : List α) (b : β) :
    held buf (l ++ l') b = (held buf l' b).or (held buf l b) := by
  rw [held, List.filter_append, List.getLast?_append, ← held, ← held]

@[simp] theorem touches_append (l : List α) (a : α) :
    touches buf (l ++ [a]) = touch buf (touches buf l) a := List.foldl_append

theorem touches_held (l : List α) : (touches buf l).1 = held buf l := by
  induction l using List.reverseRecOn with
  | nil => rfl
  | append_singleton l a ih =>
      rw [touches_append]
      funext b
      rw [held_append]
      by_cases own : buf a = b
      · subst own
        have last : held buf [a] (buf a) = some a := by simp [held]
        rw [touch_self, last, Option.some_or]
      · have none : held buf [a] b = none := by simp [held, own]
        rw [none, Option.none_or, ← ih, touch]
        split
        · rfl
        · exact Function.update_of_ne (Ne.symm own) _ _

theorem loads_append (l : List α) (a : α) :
    (touches buf (l ++ [a])).2.length =
      (touches buf l).2.length + if held buf l (buf a) = some a then 0 else 1 := by
  rw [touches_append, touch, touches_held]
  split
  · rfl
  · exact List.length_append

/-! ## Accesses that go round -/

section Round

variable {nbuf first L i : Nat}

theorem held_eq_none {l : List Nat} {b : Nat} :
    held (· % nbuf) l b = none ↔ ∀ a ∈ l, a % nbuf ≠ b := by
  rw [held, List.getLast?_eq_none_iff, List.filter_eq_nil_iff]
  simp

theorem mem_of_held {l : List Nat} {a b : Nat} (last : held (· % nbuf) l b = some a) : a ∈ l :=
  (List.mem_filter.mp (List.mem_of_getLast? last)).1

theorem apart {a b : Nat} (below : a < b) (near : b < a + nbuf) : a % nbuf ≠ b % nbuf := by
  intro same
  have divides : nbuf ∣ b - a := (Nat.modEq_iff_dvd' below.le).mp same
  have small := Nat.le_of_dvd (by omega) divides
  omega

theorem held_last (first i : Nat) :
    held (· % nbuf) (List.range' first (i + 1)) ((first + i) % nbuf) = some (first + i) := by
  rw [List.range'_1_concat, held_append]
  simp [held]

/-- When a round is over, an element is still in its buffer if no later one of the round
has taken its place. -/
theorem held_round (some : 0 < nbuf) (inside : i < L) :
    held (· % nbuf) (List.range' first L) ((first + i) % nbuf) = Option.some (first + i) ↔
      L ≤ i + nbuf := by
  have split : List.range' first L =
      List.range' first (i + 1) ++ List.range' (first + (i + 1)) (L - (i + 1)) := by
    rw [List.range'_append_1]
    congr 1
    omega
  rw [split, held_append, held_last]
  constructor
  · intro same
    by_contra far
    have later : first + i + nbuf ∈ List.range' (first + (i + 1)) (L - (i + 1)) := by
      rw [List.mem_range'_1]
      omega
    cases last : held (· % nbuf) (List.range' (first + (i + 1)) (L - (i + 1)))
        ((first + i) % nbuf) with
    | none => exact held_eq_none.mp last _ later (Nat.add_mod_right _ _)
    | some a =>
        have member := List.mem_range'_1.mp (mem_of_held last)
        rw [last, Option.some_or, Option.some.injEq] at same
        omega
  · intro near
    rw [held_eq_none.mpr fun a member => ?_, Option.none_or]
    rw [List.mem_range'_1] at member
    exact (apart (by omega) (by omega)).symm

/-- Within a round the buffer of the next element has an earlier one of the round, or what
it had before. -/
theorem held_within (some : 0 < nbuf) (before : List Nat) :
    held (· % nbuf) (before ++ List.range' first i) ((first + i) % nbuf) =
        Option.some (first + i) ↔
      i < nbuf ∧ held (· % nbuf) before ((first + i) % nbuf) = Option.some (first + i) := by
  rw [held_append]
  cases last : held (· % nbuf) (List.range' first i) ((first + i) % nbuf) with
  | some a =>
      have member := List.mem_range'_1.mp (mem_of_held last)
      have far : ¬i < nbuf := by
        intro near
        have others : ∀ b ∈ List.range' first i, b % nbuf ≠ (first + i) % nbuf := by
          intro b listed
          rw [List.mem_range'_1] at listed
          exact apart listed.2 (by omega)
        rw [held_eq_none.mpr others] at last
        cases last
      rw [Option.some_or, Option.some.injEq]
      omega
  | none =>
      have near : i < nbuf := by
        by_contra far
        have earlier : first + i - nbuf ∈ List.range' first i := by
          rw [List.mem_range'_1]
          omega
        refine held_eq_none.mp last _ earlier ?_
        have sum : first + i = first + i - nbuf + nbuf := by omega
        conv_rhs => rw [sum, Nat.add_mod_right]
      rw [Option.none_or, and_iff_right near]

theorem loads_round (some : 0 < nbuf) (before : List Nat) (i : Nat) :
    (touches (· % nbuf) (before ++ List.range' first i)).2.length =
      (touches (· % nbuf) before).2.length + (List.range i).countP fun j =>
        !decide (j < nbuf ∧
          held (· % nbuf) before ((first + j) % nbuf) = Option.some (first + j)) := by
  induction i with
  | zero => simp
  | succ i ih =>
      rw [List.range'_1_concat, ← List.append_assoc, loads_append, ih, List.range_succ,
        List.countP_append, Nat.add_assoc]
      simp only [held_within some]
      by_cases hit : i < nbuf ∧
          held (· % nbuf) before ((first + i) % nbuf) = Option.some (first + i) <;>
        simp [hit]

theorem count_ends (L : Nat) :
    (List.range L).countP (fun j => !decide (j < nbuf ∧ L ≤ j + nbuf)) =
      min L (2 * (L - nbuf)) := by
  have ends (x y n : Nat) : (List.range n).countP (fun j => decide (j < x ∨ y ≤ j)) =
      min n x + (n - y) - (min n x - y) := by
    induction n with
    | zero => simp
    | succ n ih =>
        rw [List.range_succ, List.countP_append, ih]
        by_cases one : n < x ∨ y ≤ n
        · simp [one]
          omega
        · simp [one]
          omega
  have same : (List.range L).countP (fun j => !decide (j < nbuf ∧ L ≤ j + nbuf)) =
      (List.range L).countP (fun j => decide (j < L - nbuf ∨ nbuf ≤ j)) := by
    refine List.countP_congr fun j _ => ?_
    simp only [Bool.not_eq_true', decide_eq_false_iff_not, decide_eq_true_eq]
    omega
  rw [same, ends]
  omega

theorem loads_rounds (some : 0 < nbuf) (first L rounds : Nat) :
    (touches (· % nbuf) (List.replicate (rounds + 1) (List.range' first L)).flatten).2.length =
      L + rounds * min L (2 * (L - nbuf)) := by
  induction rounds with
  | zero =>
      have none (b : Nat) : held (· % nbuf) ([] : List Nat) b = none := rfl
      have round : (touches (· % nbuf) ([] ++ List.range' first L)).2.length = _ :=
        loads_round some [] L
      simp only [none, reduceCtorEq, and_false, decide_false, Bool.not_false, List.countP_true,
        List.length_range, List.nil_append] at round
      simpa [touches] using round
  | succ rounds ih =>
      have flat : (List.replicate (rounds + 1 + 1) (List.range' first L)).flatten =
          (List.replicate (rounds + 1) (List.range' first L)).flatten ++ List.range' first L := by
        rw [List.replicate_succ', List.flatten_append, List.flatten_singleton]
      have last (j : Nat) (inside : j < L) :
          held (· % nbuf) (List.replicate (rounds + 1) (List.range' first L)).flatten
              ((first + j) % nbuf) = Option.some (first + j) ↔ L ≤ j + nbuf := by
        rw [List.replicate_succ', List.flatten_append, List.flatten_singleton, held_append,
          ← held_round some inside]
        cases own : held (· % nbuf) (List.range' first L) ((first + j) % nbuf) with
        | none =>
            have listed : first + j ∈ List.range' first L := by
              rw [List.mem_range'_1]
              omega
            exact absurd rfl (held_eq_none.mp own _ listed)
        | some a => rw [Option.some_or]
      rw [flat, loads_round some, ih, Nat.succ_mul rounds, ← count_ends L, Nat.add_assoc]
      congr 2
      refine List.countP_congr fun j member => ?_
      simp only [last j (List.mem_range.mp member)]

theorem foldl_ahead {buf : Nat → β} {ahead : Nat → List Nat}
    (next : ∀ a ∈ List.range' first L,
      ahead a = [] ∨ ahead a = [a + 1] ∧ a + 1 < first + L) (s : Store Nat β) :
    ((List.range' first L).flatMap fun a => a :: ahead a).foldl (touch buf) s =
      (List.range' first L).foldl (touch buf) s := by
  induction L generalizing first s with
  | zero => rfl
  | succ L ih =>
      have later : ∀ a ∈ List.range' (first + 1) L,
          ahead a = [] ∨ ahead a = [a + 1] ∧ a + 1 < first + 1 + L := by
        intro a member
        rw [List.mem_range'_1] at member
        have here := next a (List.mem_range'_1.mpr (by omega))
        rwa [← Nat.add_assoc, Nat.add_right_comm] at here
      rw [List.range'_succ, List.flatMap_cons, List.foldl_append, ih later, List.foldl_cons,
        List.foldl_cons]
      rcases next first (List.mem_range'_1.mpr (by omega)) with none | ⟨one, inside⟩
      · rw [none, List.foldl_nil]
      · obtain ⟨L, rfl⟩ := Nat.exists_eq_succ_of_ne_zero (show L ≠ 0 by omega)
        rw [one, List.foldl_cons, List.foldl_nil, List.range'_succ, List.foldl_cons,
          List.foldl_cons, touch_touch]

theorem touches_ahead {buf : Nat → β} {ahead : Nat → List Nat}
    (next : ∀ a ∈ List.range' first L,
      ahead a = [] ∨ ahead a = [a + 1] ∧ a + 1 < first + L) (rounds : Nat) :
    touches buf ((List.replicate rounds (List.range' first L)).flatten.flatMap
        fun a => a :: ahead a) =
      touches buf (List.replicate rounds (List.range' first L)).flatten := by
  induction rounds with
  | zero => rfl
  | succ rounds ih =>
      rw [touches] at ih
      rw [List.replicate_succ', List.flatten_append, List.flatten_singleton, List.flatMap_append,
        touches, touches, List.foldl_append, List.foldl_append, ih, foldl_ahead next]
      rfl

end Round

end MoeStream.Foundation.DirectMapped
