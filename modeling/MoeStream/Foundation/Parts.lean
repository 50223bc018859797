import Mathlib.Algebra.Order.Floor.Div
import Mathlib.Data.Finset.Union
import Mathlib.Data.List.Forall2
import Mathlib.Data.List.Nodup

/-!
# Consecutive parts of a list

A list cut into parts of one length, the last of them shorter or empty.  Laid
end to end the parts are the list again, so each of its elements lies in one of
them, and in no other when no two elements are equal.
-/

set_option autoImplicit false

namespace MoeStream.Foundation.Parts

variable {α : Type} {l : List α} {per n i j : Nat} {a : α}

/-- The `k`-th part of length `per`. -/
def part (per k : Nat) (l : List α) : List α := (l.drop (k * per)).take per

theorem part_length_le (l : List α) (per k : Nat) : (part per k l).length ≤ per :=
  List.length_take_le _ _

theorem getElem?_part {k : Nat} (inside : k < per) (l : List α) (g : Nat) :
    (part per g l)[k]? = l[g * per + k]? := by
  rw [part, List.getElem?_take_of_lt inside, List.getElem?_drop]

theorem part_drop (l : List α) (per i j : Nat) :
    part per i (l.drop (j * per)) = part per (j + i) l := by
  rw [part, part, List.drop_drop, Nat.add_mul]

theorem parts_take (l : List α) (per n : Nat) :
    (List.range n).flatMap (fun k => part per k l) = l.take (n * per) := by
  induction n with
  | zero => simp
  | succ n ih =>
      rw [List.range_succ, List.flatMap_append, List.flatMap_singleton, ih, Nat.succ_mul,
        List.take_add, part]

theorem mem_parts (enough : l.length ≤ n * per) :
    a ∈ l ↔ ∃ k, k < n ∧ a ∈ part per k l := by
  have whole := parts_take l per n
  rw [List.take_of_length_le enough] at whole
  conv_lhs => rw [← whole]
  simp only [List.mem_flatMap, List.mem_range]

/-- Two parts of a list without duplicates have nothing in common. -/
theorem parts_disjoint (distinct : l.Nodup) (different : i ≠ j) :
    (part per i l).Disjoint (part per j l) := by
  -- both parts lie in a beginning of the list
  have pieces : ((List.range (max i j + 1)).flatMap fun k => part per k l).Nodup := by
    rw [parts_take]
    exact distinct.take
  have apart := (List.nodup_flatMap.mp pieces).2
  have symmetric : Std.Symm (Function.onFun List.Disjoint fun k => part per k l) :=
    ⟨fun _ _ disjoint => List.Disjoint.symm disjoint⟩
  exact apart.forall (List.mem_range.mpr (by omega)) (List.mem_range.mpr (by omega)) different

theorem length_le_ceil (positive : 0 < n) : l.length ≤ n * (l.length ⌈/⌉ n) :=
  (ceilDiv_le_iff_le_mul positive).mp (Nat.le_refl _)

/-! ## Lists related element by element -/

section Related

variable {β : Type} {R : α → β → Prop} {xs : List α} {ys : List β}

theorem forall₂_left (related : List.Forall₂ R xs ys) {x : α} (member : x ∈ xs) :
    ∃ y ∈ ys, R x y := by
  induction related with
  | nil => cases member
  | cons head _ ih =>
      rcases List.mem_cons.mp member with rfl | later
      · exact ⟨_, List.mem_cons_self, head⟩
      · obtain ⟨y, listed, holds⟩ := ih later
        exact ⟨y, List.mem_cons_of_mem _ listed, holds⟩

theorem forall₂_right (related : List.Forall₂ R xs ys) {y : β} (member : y ∈ ys) :
    ∃ x ∈ xs, R x y :=
  forall₂_left related.flip member

theorem forall₂_getElem? (related : List.Forall₂ R xs ys) {i : Nat} {x : α}
    (there : xs[i]? = some x) : ∃ y, ys[i]? = some y ∧ R x y := by
  obtain ⟨inside, rfl⟩ := List.getElem?_eq_some_iff.mp there
  have inside' : i < ys.length := related.length_eq ▸ inside
  exact ⟨ys[i], List.getElem?_eq_getElem inside', related.get inside inside'⟩

end Related

/-- Elements with the same key are the same when no key stands twice. -/
theorem eq_of_filterMap_nodup {β : Type} {f : α → Option β}
    (nodup : (l.filterMap f).Nodup) {a b : α} (memberA : a ∈ l) (memberB : b ∈ l) {x : β}
    (valueA : f a = some x) (valueB : f b = some x) : a = b := by
  induction l with
  | nil => cases memberA
  | cons head rest ih =>
      have listed : ∀ {c : α}, c ∈ rest → f c = some x → x ∈ rest.filterMap f :=
        fun member value => List.mem_filterMap.mpr ⟨_, member, value⟩
      cases value : f head with
      | none =>
          rw [List.filterMap_cons_none value] at nodup
          rcases List.mem_cons.mp memberA with rfl | restA
          · rw [value] at valueA
            cases valueA
          · rcases List.mem_cons.mp memberB with rfl | restB
            · rw [value] at valueB
              cases valueB
            · exact ih nodup restA restB
      | some y =>
          rw [List.filterMap_cons_some value] at nodup
          obtain ⟨fresh, nodup⟩ := List.nodup_cons.mp nodup
          rcases List.mem_cons.mp memberA with rfl | restA
          · rcases List.mem_cons.mp memberB with rfl | restB
            · rfl
            · rw [value] at valueA
              cases Option.some.inj valueA
              exact absurd (listed restB valueB) fresh
          · rcases List.mem_cons.mp memberB with rfl | restB
            · rw [value] at valueB
              cases Option.some.inj valueB
              exact absurd (listed restA valueA) fresh
            · exact ih nodup restA restB

/-! ## Blocks laid end to end -/

section Blocks

variable {blocks : List (List α)} {m : Nat}

theorem part_flatten (uniform : ∀ b ∈ blocks, b.length = m) (g : Nat) :
    part m g blocks.flatten = (blocks[g]?).getD [] := by
  induction blocks generalizing g with
  | nil => simp [part]
  | cons b rest ih =>
      obtain ⟨first, others⟩ := List.forall_mem_cons.mp uniform
      cases g with
      | zero => simp [part, ← first]
      | succ g =>
          rw [List.getElem?_cons_succ, ← ih others g, part, part, List.flatten_cons, Nat.succ_mul,
            Nat.add_comm, ← List.drop_drop, List.drop_left' first]

theorem length_flatten_le (most : ∀ b ∈ blocks, b.length ≤ m) :
    blocks.flatten.length ≤ blocks.length * m := by
  induction blocks with
  | nil => exact Nat.zero_le _
  | cons b rest ih =>
      obtain ⟨first, others⟩ := List.forall_mem_cons.mp most
      rw [List.flatten_cons, List.length_append, List.length_cons, Nat.succ_mul, Nat.add_comm]
      exact Nat.add_le_add (ih others) first

theorem length_flatten_of_uniform (uniform : ∀ b ∈ blocks, b.length = m) :
    blocks.flatten.length = blocks.length * m := by
  rw [List.length_flatten, List.map_congr_left uniform]
  simp

theorem uniform_of_full (most : ∀ b ∈ blocks, b.length ≤ m)
    (full : blocks.length * m ≤ blocks.flatten.length) : ∀ b ∈ blocks, b.length = m := by
  induction blocks with
  | nil => exact List.forall_mem_nil _
  | cons b rest ih =>
      obtain ⟨first, others⟩ := List.forall_mem_cons.mp most
      have bound := length_flatten_le others
      rw [List.length_cons, List.flatten_cons, List.length_append, Nat.succ_mul] at full
      exact List.forall_mem_cons.mpr ⟨by omega, ih others (by omega)⟩

end Blocks

end MoeStream.Foundation.Parts
