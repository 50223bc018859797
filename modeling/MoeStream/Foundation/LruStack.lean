import Mathlib.Algebra.BigOperators.Group.Finset.Piecewise
import Mathlib.Data.List.Nodup

/-!
# Least recently used caches of every capacity at once

The keys of a sequence of accesses, most recently used first, form a stack.  A
least recently used cache of capacity `c` holds its first `c` keys, so an access
hits exactly the caches larger than the depth at which its key is found.  The
depths of a sequence therefore determine the hits of every capacity.

Timestamps give the same depth: it is the number of keys with a later one.
-/

set_option autoImplicit false

namespace MoeStream.Foundation.LruStack

variable {κ : Type} [DecidableEq κ]

/-! ## The caches -/

/-- One access of a cache of capacity `c`, most recently used key first: a hit
moves its key to the front, a miss may drop the last key. -/
def access (c : Nat) (cache : List κ) (k : κ) : List κ :=
  if k ∈ cache then k :: cache.erase k else (k :: cache).take c

/-- The cache and its hits after a sequence of accesses, starting empty. -/
def run (c : Nat) (ks : List κ) : List κ × Nat :=
  ks.foldl (fun r k => (access c r.1 k, if k ∈ r.1 then r.2 + 1 else r.2)) ([], 0)

def hits (c : Nat) (ks : List κ) : Nat := (run c ks).2

theorem run_append (c : Nat) (ks : List κ) (k : κ) :
    run c (ks ++ [k]) = (access c (run c ks).1 k,
      if k ∈ (run c ks).1 then (run c ks).2 + 1 else (run c ks).2) := by
  simp only [run]
  rw [List.foldl_append]
  rfl

/-! ## The stack -/

def push (stack : List κ) (k : κ) : List κ := k :: stack.erase k

def stack (ks : List κ) : List κ := ks.foldl push []

@[simp] theorem stack_append (ks : List κ) (k : κ) : stack (ks ++ [k]) = push (stack ks) k := by
  simp only [stack]
  rw [List.foldl_append]
  rfl

def depth (s : List κ) (k : κ) : Option Nat := if k ∈ s then some (s.idxOf k) else none

def depths (ks : List κ) : List (Option Nat) :=
  (ks.foldl (fun r k => (push r.1 k, r.2 ++ [depth r.1 k])) (([] : List κ), [])).2

@[simp] theorem depths_append (ks : List κ) (k : κ) :
    depths (ks ++ [k]) = depths ks ++ [depth (stack ks) k] := by
  have first : ∀ (ks : List κ) (s : List κ) (ds : List (Option Nat)),
      (ks.foldl (fun r k => (push r.1 k, r.2 ++ [depth r.1 k])) (s, ds)).1 = ks.foldl push s := by
    intro ks
    induction ks with
    | nil => exact fun _ _ => rfl
    | cons k rest ih => exact fun s ds => ih _ _
  simp only [depths, stack]
  rw [List.foldl_append, List.foldl_cons, List.foldl_nil, first]

theorem push_nodup {s : List κ} (nodup : s.Nodup) (k : κ) : (push s k).Nodup :=
  List.nodup_cons.mpr ⟨nodup.not_mem_erase, nodup.erase k⟩

theorem mem_push {s : List κ} {k j : κ} : j ∈ push s k ↔ j = k ∨ j ∈ s := by
  simp only [push]
  rw [List.mem_cons]
  by_cases same : j = k
  · exact iff_of_true (Or.inl same) (Or.inl same)
  · rw [List.mem_erase_of_ne same]

theorem stack_nodup (ks : List κ) : (stack ks).Nodup := by
  induction ks using List.reverseRecOn with
  | nil => exact List.nodup_nil
  | append_singleton ks k ih =>
      rw [stack_append]
      exact push_nodup ih k

theorem mem_stack {ks : List κ} {k : κ} : k ∈ stack ks ↔ k ∈ ks := by
  induction ks using List.reverseRecOn with
  | nil => exact Iff.rfl
  | append_singleton ks j ih =>
      rw [stack_append, mem_push, ih, List.mem_append, List.mem_singleton]
      exact Or.comm

/-! ## Inclusion -/

theorem take_erase (n : Nat) (s : List κ) (k : κ) :
    ((s.take (n + 1)).erase k).take n = (s.erase k).take n := by
  induction n generalizing s with
  | zero => rw [List.take_zero, List.take_zero]
  | succ n ih =>
      cases s with
      | nil => rfl
      | cons head rest =>
          rw [List.take_succ_cons]
          by_cases same : head = k
          · rw [same, List.erase_cons_head, List.erase_cons_head, List.take_take]
            exact congrArg (fun m => rest.take m) (by omega)
          · have other : ¬(head == k) = true := by
              rw [beq_iff_eq]
              exact same
            rw [List.erase_cons_tail other, List.erase_cons_tail other, List.take_succ_cons,
              List.take_succ_cons, ih]

/-- A cache of capacity `c` holds the `c` most recently used keys. -/
theorem run_cache (c : Nat) (ks : List κ) : (run c ks).1 = (stack ks).take c := by
  induction ks using List.reverseRecOn with
  | nil => exact List.take_nil.symm
  | append_singleton ks k ih =>
      rw [run_append, stack_append, ih]
      simp only [access, push]
      cases c with
      | zero => simp
      | succ n =>
          by_cases held : k ∈ (stack ks).take (n + 1)
          · have short : ((stack ks).take (n + 1)).erase k =
                (((stack ks).take (n + 1)).erase k).take n := by
              apply (List.take_of_length_le ?_).symm
              rw [List.length_erase_of_mem held, List.length_take]
              omega
            rw [if_pos held, List.take_succ_cons, short, take_erase]
          · rw [if_neg held, List.take_succ_cons, List.take_succ_cons]
            rw [List.take_take, Nat.min_eq_left (Nat.le_succ n), ← take_erase,
              List.erase_of_not_mem held, List.take_take, Nat.min_eq_left (Nat.le_succ n)]

/-- An access hits the caches that are larger than the depth of its key. -/
theorem mem_take_iff {s : List κ} {k : κ} {c : Nat} :
    k ∈ s.take c ↔ ∃ r, depth s k = some r ∧ r < c := by
  simp only [depth]
  constructor
  · intro held
    have listed := List.mem_of_mem_take held
    rw [if_pos listed]
    refine ⟨_, rfl, ?_⟩
    have short := List.idxOf_lt_length_of_mem held
    have same : (s.take c).idxOf k = s.idxOf k := by
      conv_rhs => rw [← List.take_append_drop c s]
      exact (List.idxOf_append_of_mem held).symm
    rw [same, List.length_take] at short
    omega
  · rintro ⟨r, found, small⟩
    split at found
    · rename_i listed
      cases found
      have inside := List.idxOf_lt_length_of_mem listed
      apply List.mem_take_iff_getElem.mpr
      exact ⟨s.idxOf k, by omega, List.getElem_idxOf inside⟩
    · cases found

theorem sum_count_singleton (c : Nat) (d : Option Nat) :
    ∑ r ∈ Finset.range c, [d].count (some r) = if ∃ r, d = some r ∧ r < c then 1 else 0 := by
  cases d with
  | none => simp
  | some r =>
      simp only [List.count_singleton, Option.some.injEq, exists_eq_left', beq_iff_eq]
      rw [Finset.sum_ite_eq]
      simp only [Finset.mem_range]

/-- The hits of a cache are the accesses at a depth below its capacity. -/
theorem hits_eq (c : Nat) (ks : List κ) :
    hits c ks = ∑ r ∈ Finset.range c, (depths ks).count (some r) := by
  induction ks using List.reverseRecOn with
  | nil => simp [hits, run, depths]
  | append_singleton ks k ih =>
      simp only [hits] at ih ⊢
      rw [run_append, depths_append, run_cache]
      simp only [List.count_append, Finset.sum_add_distrib, ← ih, sum_count_singleton]
      by_cases held : k ∈ (stack ks).take c
      · rw [if_pos held, if_pos (mem_take_iff.mp held)]
      · rw [if_neg held, if_neg fun shallow => held (mem_take_iff.mpr shallow)]
        rfl

/-! ## First accesses -/

def firsts (ks : List κ) : Nat :=
  (List.range ks.length).countP fun n => ks[n]?.all fun k => decide (k ∉ ks.take n)

theorem firsts_append (ks : List κ) (k : κ) :
    firsts (ks ++ [k]) = firsts ks + if k ∈ ks then 0 else 1 := by
  simp only [firsts]
  rw [List.length_append, List.length_singleton, List.range_succ, List.countP_append]
  congr 1
  · apply List.countP_congr
    intro n member
    have inside := List.mem_range.mp member
    rw [List.getElem?_append_left inside, List.take_append_of_le_length (Nat.le_of_lt inside)]
  · rw [List.countP_singleton, List.take_left, List.getElem?_concat_length]
    by_cases seen : k ∈ ks <;> simp [seen]

theorem count_none (ks : List κ) : (depths ks).count none = firsts ks := by
  induction ks using List.reverseRecOn with
  | nil => rfl
  | append_singleton ks k ih =>
      rw [depths_append, firsts_append, List.count_append, ih]
      congr 1
      simp only [depth]
      by_cases seen : k ∈ ks
      · rw [if_pos seen, if_pos (mem_stack.mpr seen)]
        rfl
      · rw [if_neg seen, if_neg fun listed => seen (mem_stack.mp listed)]
        rfl

theorem stack_length_le (ks : List κ) (k : κ) :
    (stack ks).length ≤ (stack (ks ++ [k])).length := by
  rw [stack_append]
  simp only [push]
  rw [List.length_cons, List.length_erase]
  split <;> omega

theorem length_eq (ks : List κ) {n : Nat} (small : (stack ks).length ≤ n) :
    ks.length = firsts ks + ∑ r ∈ Finset.range n, (depths ks).count (some r) := by
  induction ks using List.reverseRecOn with
  | nil => simp [firsts, depths]
  | append_singleton ks k ih =>
      have before := (stack_length_le ks k).trans small
      have one : [depth (stack ks) k].count none +
          ∑ r ∈ Finset.range n, [depth (stack ks) k].count (some r) = 1 := by
        rw [sum_count_singleton]
        unfold depth
        by_cases found : k ∈ stack ks
        · have inside := List.idxOf_lt_length_of_mem found
          rw [if_pos found, if_pos ⟨_, rfl, Nat.lt_of_lt_of_le inside before⟩]
          rfl
        · rw [if_neg found, if_neg]
          · rfl
          · rintro ⟨r, none, -⟩
            cases none
      rw [← count_none, depths_append]
      simp only [List.count_append, Finset.sum_add_distrib]
      rw [List.length_append, List.length_singleton, ih before, ← count_none]
      omega

/-! ## Timestamps -/

/-- The last access of each of the `keys` is stamped by a clock that never
repeats; a key that was never accessed has the stamp zero. -/
structure Stamped (keys : List κ) (last : κ → Nat) (clock : Nat) (s : List κ) : Prop where
  listed : ∀ k ∈ s, k ∈ keys
  present : ∀ k, k ∈ s ↔ last k ≠ 0
  order : s.Pairwise fun a b => last b < last a
  bound : ∀ k, last k ≤ clock

variable {keys : List κ} {last : κ → Nat} {clock : Nat} {s : List κ}

omit [DecidableEq κ] in
theorem Stamped.start : Stamped keys (fun _ => 0) 0 [] where
  listed := by simp
  present := by simp
  order := .nil
  bound := fun _ => Nat.le_refl 0

theorem Stamped.push (stamped : Stamped keys last clock s) {k : κ} (member : k ∈ keys) :
    Stamped keys (Function.update last k (clock + 1)) (clock + 1) (push s k) := by
  have nodup : s.Nodup := stamped.order.imp fun later => fun same => by
    rw [same] at later
    exact Nat.lt_irrefl _ later
  refine ⟨?_, ?_, ?_, ?_⟩
  · intro j listed
    rcases mem_push.mp listed with rfl | before
    · exact member
    · exact stamped.listed j before
  · intro j
    rw [mem_push]
    by_cases same : j = k
    · subst same
      rw [Function.update_self]
      exact iff_of_true (Or.inl rfl) (Nat.succ_ne_zero clock)
    · rw [Function.update_of_ne same, stamped.present]
      exact or_iff_right same
  · apply List.Pairwise.cons
    · intro j rest
      have other : j ≠ k := by
        rintro rfl
        exact nodup.not_mem_erase rest
      rw [Function.update_self, Function.update_of_ne other]
      exact Nat.lt_succ_of_le (stamped.bound j)
    · apply (stamped.order.sublist (List.erase_sublist)).imp_of_mem
      intro i j first second later
      have apart : ∀ x ∈ s.erase k, x ≠ k := by
        rintro x rest rfl
        exact nodup.not_mem_erase rest
      rw [Function.update_of_ne (apart i first), Function.update_of_ne (apart j second)]
      exact later
  · intro j
    by_cases same : j = k
    · subst same
      rw [Function.update_self]
    · rw [Function.update_of_ne same]
      exact Nat.le_succ_of_le (stamped.bound j)

theorem Stamped.later (stamped : Stamped keys last clock s) (nodup : keys.Nodup) {k : κ}
    (found : k ∈ s) : keys.countP (fun j => decide (last k < last j)) = s.idxOf k := by
  obtain ⟨above, below, rfl, fresh⟩ := List.eq_append_cons_of_mem found
  obtain ⟨orderAbove, orderBelow, across⟩ := List.pairwise_append.mp stamped.order
  rw [List.idxOf_append_of_notMem fresh, List.idxOf_cons_self, Nat.add_zero]
  rw [List.countP_eq_length_filter]
  apply List.Perm.length_eq
  apply (List.perm_ext_iff_of_nodup (nodup.filter _) ?_).mpr
  · intro j
    rw [List.mem_filter, decide_eq_true_eq]
    constructor
    · rintro ⟨-, later⟩
      have listed := (stamped.present j).mpr (by omega)
      rcases List.mem_append.mp listed with high | low
      · exact high
      · rcases List.mem_cons.mp low with rfl | rest
        · exact absurd later (Nat.lt_irrefl _)
        · have under := (List.pairwise_cons.mp orderBelow).1 j rest
          omega
    · intro high
      refine ⟨stamped.listed j (List.mem_append_left _ high), ?_⟩
      exact across j high k List.mem_cons_self
  · exact orderAbove.imp fun later => fun same => by
      rw [same] at later
      exact Nat.lt_irrefl _ later

theorem Stamped.depth (stamped : Stamped keys last clock s) (nodup : keys.Nodup) (k : κ) :
    depth s k = if last k = 0 then none
      else some (keys.countP fun j => decide (last k < last j)) := by
  simp only [LruStack.depth]
  by_cases found : k ∈ s
  · rw [if_pos found, if_neg ((stamped.present k).mp found), stamped.later nodup found]
  · have zero : last k = 0 := by
      by_contra some
      exact found ((stamped.present k).mpr some)
    rw [if_neg found, if_pos zero]

end MoeStream.Foundation.LruStack
