import Mathlib.Data.List.Basic

/-!
# Distances between sorted keys

Items placed on a line by their keys: each reaches to the next larger key, and
the last one to a given end.  Sorting the items and taking the distance to the
neighbour measures this when no two keys are equal.
-/

set_option autoImplicit false

namespace MoeStream.Foundation.Gaps

variable {α : Type} {key : α → Nat} {items : List α}

/-- The next larger key, `last` when there is none. -/
def following (keys : List Nat) (last k : Nat) : Nat :=
  (keys.filter fun k' => decide (k < k')).min?.getD last

def gaps (key : α → Nat) (last : Nat) : List α → List (α × Nat)
  | [] => []
  | [a] => [(a, last - key a)]
  | a :: b :: rest => (a, key b - key a) :: gaps key last (b :: rest)

def inOrder (key : α → Nat) (items : List α) : List α :=
  items.mergeSort fun a b => decide (key a ≤ key b)

theorem inOrder_perm : (inOrder key items).Perm items := List.mergeSort_perm _ _

theorem inOrder_sorted (distinct : (items.map key).Nodup) :
    (inOrder key items).Pairwise fun a b => key a < key b := by
  have ordered : (inOrder key items).Pairwise fun a b => decide (key a ≤ key b) = true := by
    apply List.pairwise_mergeSort
    · intro a b c first second
      simp only [decide_eq_true_eq] at first second ⊢
      exact Nat.le_trans first second
    · intro a b
      simp only [Bool.or_eq_true, decide_eq_true_eq]
      exact Nat.le_total _ _
  have apart : (inOrder key items).Pairwise fun a b => key a ≠ key b :=
    List.pairwise_map.mp ((inOrder_perm.map key).nodup_iff.mpr distinct)
  refine (ordered.and apart).imp fun {a b} both => ?_
  exact Nat.lt_of_le_of_ne (of_decide_eq_true both.1) both.2

variable {keys keys' : List Nat} {last last' k : Nat}

theorem following_perm (perm : keys.Perm keys') :
    following keys last k = following keys' last k := by
  have same : (keys.filter fun k' => decide (k < k')).min? =
      (keys'.filter fun k' => decide (k < k')).min? := by
    cases first : (keys.filter fun k' => decide (k < k')).min? with
    | none =>
        rw [List.min?_eq_none_iff] at first
        have empty := (perm.filter fun k' => decide (k < k')).symm
        rw [first] at empty
        rw [List.Perm.eq_nil empty]
        rfl
    | some least =>
        symm
        obtain ⟨member, bound⟩ := List.min?_eq_some_iff.mp first
        have moved := perm.filter fun k' => decide (k < k')
        exact List.min?_eq_some_iff.mpr ⟨moved.subset member, fun b other =>
          bound b (moved.symm.subset other)⟩
  rw [following, same, following]

theorem following_last (greatest : ∀ k' ∈ keys, k' ≤ k) : following keys last k = last := by
  have none : (keys.filter fun k' => decide (k < k')) = [] := by
    apply List.filter_eq_nil_iff.mpr
    intro k' member above
    exact absurd (of_decide_eq_true above) (Nat.not_lt.mpr (greatest k' member))
  rw [following, none]
  rfl

theorem following_congr {above : Nat} (member : above ∈ keys) (larger : k < above) :
    following keys last k = following keys last' k := by
  have listed : above ∈ keys.filter fun k' => decide (k < k') :=
    List.mem_filter.mpr ⟨member, decide_eq_true larger⟩
  obtain ⟨least, found⟩ := Option.isSome_iff_exists.mp (List.isSome_min?_of_mem listed)
  rw [following, found, following, found]
  rfl

/-- The distance to the neighbour is the distance to the next larger key. -/
theorem gaps_eq (sorted : items.Pairwise fun a b => key a < key b) (last : Nat) :
    gaps key last items =
      items.map fun a => (a, following (items.map key) last (key a) - key a) := by
  induction items with
  | nil => rfl
  | cons a rest ih =>
      obtain ⟨least, sorted⟩ := List.pairwise_cons.mp sorted
      have later : ∀ b ∈ rest, following ((a :: rest).map key) last (key b) =
          following (rest.map key) last (key b) := by
        intro b member
        have notAbove : decide (key b < key a) = false :=
          decide_eq_false (Nat.not_lt.mpr (Nat.le_of_lt (least b member)))
        rw [following, List.map_cons, List.filter_cons, notAbove]
        rfl
      cases rest with
      | nil =>
          have own : following [key a] last (key a) = last :=
            following_last fun k' member => Nat.le_of_eq (List.mem_singleton.mp member)
          rw [gaps, List.map_singleton, List.map_singleton, own]
      | cons b rest =>
          have next : following ((a :: b :: rest).map key) last (key a) = key b := by
            have listed : key b ∈ ((a :: b :: rest).map key).filter fun k' =>
                decide (key a < k') :=
              List.mem_filter.mpr ⟨by simp, decide_eq_true (least b List.mem_cons_self)⟩
            have found : (((a :: b :: rest).map key).filter fun k' =>
                decide (key a < k')).min? = some (key b) := by
              refine List.min?_eq_some_iff.mpr ⟨listed, ?_⟩
              intro k' member
              obtain ⟨inKeys, above⟩ := List.mem_filter.mp member
              have above := of_decide_eq_true above
              simp only [List.map_cons, List.mem_cons, List.mem_map] at inKeys
              rcases inKeys with rfl | rfl | ⟨c, inRest, rfl⟩
              · exact absurd above (Nat.lt_irrefl _)
              · exact Nat.le_refl _
              · exact Nat.le_of_lt ((List.pairwise_cons.mp sorted).1 c inRest)
            rw [following, found]
            rfl
          have tail : (b :: rest).map (fun c =>
                (c, following ((b :: rest).map key) last (key c) - key c)) =
              (b :: rest).map fun c =>
                (c, following ((a :: b :: rest).map key) last (key c) - key c) :=
            List.map_congr_left fun c member => by rw [later c member]
          rw [gaps, ih sorted, tail]
          change _ = (a, following ((a :: b :: rest).map key) last (key a) - key a) :: _
          rw [next]

end MoeStream.Foundation.Gaps
