import Mathlib.Algebra.GroupWithZero.Nat
import Mathlib.Data.List.Basic
import Mathlib.Data.List.Induction
import Mathlib.Order.Lattice

/-!
# Ordered maps

A map with ordered keys as the list of its pairs in key order, with the
operations of a map whose `[]` creates a missing entry.
-/

set_option autoImplicit false

namespace MoeStream.Foundation

abbrev OrderedMap (κ β : Type) := List (κ × β)

namespace OrderedMap

variable {κ β : Type} [LinearOrder κ]

def find (m : OrderedMap κ β) (k : κ) : Option β := m.lookup k

def get [Inhabited β] (m : OrderedMap κ β) (k : κ) : β := (m.find k).getD default

def modify [Inhabited β] (k : κ) (f : β → β) : OrderedMap κ β → OrderedMap κ β
  | [] => [(k, f default)]
  | (k', v) :: rest =>
      if k < k' then (k, f default) :: (k', v) :: rest
      else if k = k' then (k', f v) :: rest
      else (k', v) :: modify k f rest

def last : OrderedMap κ β → Option κ
  | [] => none
  | [(k, _)] => some k
  | _ :: second :: rest => last (second :: rest)

def Sorted (m : OrderedMap κ β) : Prop := m.Pairwise fun a b => a.1 < b.1

variable {m : OrderedMap κ β} {k k' : κ} {v : β}

theorem find_absent (absent : ∀ q ∈ m, q.1 ≠ k) : m.find k = none := by
  simp only [find]
  apply List.lookup_eq_none_iff.mpr
  intro q member
  exact bne_iff_ne.mpr (absent q member).symm

@[simp] theorem find_head {rest : OrderedMap κ β} : find ((k, v) :: rest) k = some v := by
  simp [find]

theorem find_mem (found : m.find k = some v) : (k, v) ∈ m := by
  induction m with
  | nil => cases found
  | cons first rest ih =>
      obtain ⟨k', v'⟩ := first
      simp only [find] at found ih
      rw [List.lookup_cons] at found
      cases same : k == k' with
      | true =>
          rw [same] at found
          cases found
          rw [eq_of_beq same]
          exact List.mem_cons_self
      | false =>
          rw [same] at found
          exact List.mem_cons_of_mem _ (ih found)

theorem Sorted.le_last (sorted : m.Sorted) {q : κ × β} (member : q ∈ m) :
    ∃ l, m.last = some l ∧ q.1 ≤ l := by
  induction m generalizing q with
  | nil => cases member
  | cons first rest ih =>
      obtain ⟨least, later⟩ := List.pairwise_cons.mp sorted
      cases rest with
      | nil =>
          cases List.mem_singleton.mp member
          exact ⟨first.1, rfl, le_refl _⟩
      | cons second rest =>
          rcases List.mem_cons.mp member with same | inRest
          · cases same
            obtain ⟨l, last, bound⟩ := ih later List.mem_cons_self
            exact ⟨l, last, le_trans (le_of_lt (least second List.mem_cons_self)) bound⟩
          · exact ih later inRest

section Modify

variable [Inhabited β] {f : β → β}

theorem modify_key {q : κ × β} (member : q ∈ m.modify k f) : q.1 = k ∨ ∃ v, (q.1, v) ∈ m := by
  induction m with
  | nil =>
      left
      rw [List.mem_singleton.mp member]
  | cons first rest ih =>
      obtain ⟨k', v'⟩ := first
      simp only [modify] at member
      split at member
      · rcases List.mem_cons.mp member with rfl | old
        · exact Or.inl rfl
        · exact Or.inr ⟨q.2, old⟩
      · split at member
        · rename_i same
          rcases List.mem_cons.mp member with rfl | old
          · exact Or.inl same.symm
          · exact Or.inr ⟨q.2, List.mem_cons_of_mem _ old⟩
        · rcases List.mem_cons.mp member with rfl | later
          · exact Or.inr ⟨v', List.mem_cons_self⟩
          · rcases ih later with same | ⟨v'', old⟩
            · exact Or.inl same
            · exact Or.inr ⟨v'', List.mem_cons_of_mem _ old⟩

theorem Sorted.modify (sorted : m.Sorted) : (m.modify k f).Sorted := by
  induction m with
  | nil => exact List.pairwise_singleton _ _
  | cons first rest ih =>
      obtain ⟨k', v'⟩ := first
      obtain ⟨least, sorted⟩ := List.pairwise_cons.mp sorted
      simp only [OrderedMap.modify]
      split
      · rename_i before
        apply List.Pairwise.cons ?_ (List.Pairwise.cons least sorted)
        intro q member
        rcases List.mem_cons.mp member with rfl | later
        · exact before
        · exact lt_trans before (least q later)
      · split
        · exact List.Pairwise.cons least sorted
        · rename_i notBefore different
          apply List.Pairwise.cons ?_ (ih sorted)
          intro q member
          rcases modify_key member with same | ⟨v'', old⟩
          · rw [same]
            exact lt_of_le_of_ne (not_lt.mp notBefore) (Ne.symm different)
          · exact least (q.1, v'') old

theorem find_modify (sorted : m.Sorted) :
    (m.modify k f).find k' = if k' = k then some (f (m.get k)) else m.find k' := by
  induction m with
  | nil =>
      simp only [modify, get, find]
      by_cases same : k' = k
      · subst same
        simp
      · simp [same]
  | cons first rest ih =>
      obtain ⟨k'', v⟩ := first
      obtain ⟨least, sorted⟩ := List.pairwise_cons.mp sorted
      simp only [modify]
      split
      · rename_i before
        by_cases same : k' = k
        · subst same
          have absent : find ((k'', v) :: rest) k' = none := by
            apply find_absent
            intro q member
            rcases List.mem_cons.mp member with rfl | later
            · exact ne_of_gt before
            · exact ne_of_gt (lt_trans before (least q later))
          rw [if_pos rfl, get, absent, find_head]
          rfl
        · rw [if_neg same]
          simp only [find]
          rw [List.lookup_cons, beq_eq_false_iff_ne.mpr same]
      · split
        · rename_i same
          subst same
          by_cases own : k' = k
          · subst own
            rw [if_pos rfl, get, find_head, find_head]
            rfl
          · rw [if_neg own]
            simp only [find]
            rw [List.lookup_cons, List.lookup_cons, beq_eq_false_iff_ne.mpr own]
        · rename_i different
          have later := ih sorted
          simp only [get, find] at later ⊢
          rw [List.lookup_cons, List.lookup_cons, List.lookup_cons,
            beq_eq_false_iff_ne.mpr different]
          by_cases own : k' = k''
          · subst own
            rw [if_neg (Ne.symm different)]
            simp
          · rw [beq_eq_false_iff_ne.mpr own]
            exact later

theorem get_modify (sorted : m.Sorted) :
    (m.modify k f).get k' = if k' = k then f (m.get k) else m.get k' := by
  simp only [get]
  rw [find_modify sorted]
  split <;> rfl

end Modify

theorem get_of_find [Inhabited β] (found : m.find k = some v) : m.get k = v := by
  simp only [get]
  rw [found]
  rfl

theorem Sorted.find_of_mem (sorted : m.Sorted) (member : (k, v) ∈ m) : m.find k = some v := by
  induction m with
  | nil => cases member
  | cons first rest ih =>
      obtain ⟨least, sorted⟩ := List.pairwise_cons.mp sorted
      rcases List.mem_cons.mp member with rfl | later
      · exact find_head
      · have greater := least (k, v) later
        have found := ih sorted later
        simp only [find] at found ⊢
        rw [List.lookup_cons, beq_eq_false_iff_ne.mpr (ne_of_gt greater)]
        exact found

/-! ## Sums by key -/

def tally (items : List (κ × Nat)) : OrderedMap κ Nat :=
  items.foldl (fun m c => m.modify c.1 (· + c.2)) []

def sumAt (items : List (κ × Nat)) (k : κ) : Nat :=
  ((items.filter fun c => decide (c.1 = k)).map Prod.snd).sum

/-- The largest value, `0` when there is none. -/
def greatest (values : List Nat) : Nat := values.foldl max 0

variable {items : List (κ × Nat)}

theorem tally_append (item : κ × Nat) :
    tally (items ++ [item]) = (tally items).modify item.1 (· + item.2) := by
  simp only [tally]
  rw [List.foldl_append]
  rfl

theorem tally_sorted (items : List (κ × Nat)) : (tally items).Sorted := by
  induction items using List.reverseRecOn with
  | nil => exact List.Pairwise.nil
  | append_singleton items item ih =>
      rw [tally_append]
      exact ih.modify

theorem get_tally (items : List (κ × Nat)) (k : κ) : (tally items).get k = sumAt items k := by
  induction items using List.reverseRecOn with
  | nil => rfl
  | append_singleton items item ih =>
      rw [tally_append, get_modify (tally_sorted items)]
      simp only [sumAt] at ih ⊢
      rw [List.filter_append, List.map_append, List.sum_append]
      by_cases own : k = item.1
      · subst own
        rw [if_pos rfl, ih]
        simp
      · rw [if_neg own, ih]
        simp [Ne.symm own]

theorem mem_tally {k : κ} {n : Nat} :
    (k, n) ∈ tally items ↔ (∃ c ∈ items, c.1 = k) ∧ n = sumAt items k := by
  have keys : ∀ items : List (κ × Nat), ((tally items).find k).isSome = true ↔
      ∃ c ∈ items, c.1 = k := by
    intro items
    induction items using List.reverseRecOn with
    | nil => exact iff_of_false nofun nofun
    | append_singleton items item ih =>
        rw [tally_append, find_modify (tally_sorted items)]
        by_cases own : k = item.1
        · rw [if_pos own]
          exact iff_of_true rfl ⟨item, by simp, own.symm⟩
        · rw [if_neg own, ih]
          constructor
          · rintro ⟨c, member, same⟩
            exact ⟨c, List.mem_append_left _ member, same⟩
          · rintro ⟨c, member, same⟩
            rcases List.mem_append.mp member with old | new
            · exact ⟨c, old, same⟩
            · rw [List.mem_singleton.mp new] at same
              exact absurd same.symm own
  have value := get_tally items k
  constructor
  · intro member
    have found := (tally_sorted items).find_of_mem member
    refine ⟨(keys items).mp (by rw [found]; rfl), ?_⟩
    rw [← value, get_of_find found]
  · rintro ⟨listed, rfl⟩
    obtain ⟨n, found⟩ := Option.isSome_iff_exists.mp ((keys items).mpr listed)
    rw [← value, get_of_find found]
    exact find_mem found

theorem greatest_le {values : List Nat} {n : Nat} : greatest values ≤ n ↔ ∀ v ∈ values, v ≤ n := by
  have general : ∀ start, values.foldl max start ≤ n ↔ start ≤ n ∧ ∀ v ∈ values, v ≤ n := by
    induction values with
    | nil => simp
    | cons v rest ih =>
        intro start
        rw [List.foldl_cons, ih, List.forall_mem_cons, Nat.max_le, and_assoc]
  rw [greatest, general]
  exact and_iff_right (Nat.zero_le n)

theorem greatest_tally (items : List (κ × Nat)) :
    greatest ((tally items).map Prod.snd) = greatest (items.map fun c => sumAt items c.1) := by
  refine eq_of_forall_ge_iff fun n => ?_
  rw [greatest_le, greatest_le]
  constructor
  · intro all v member
    obtain ⟨c, listed, rfl⟩ := List.mem_map.mp member
    have held : (c.1, sumAt items c.1) ∈ tally items := mem_tally.mpr ⟨⟨c, listed, rfl⟩, rfl⟩
    exact all _ (List.mem_map_of_mem (f := Prod.snd) held)
  · intro all v member
    obtain ⟨⟨k, m⟩, listed, rfl⟩ := List.mem_map.mp member
    obtain ⟨⟨c, inItems, rfl⟩, rfl⟩ := mem_tally.mp listed
    exact all _ (List.mem_map.mpr ⟨c, inItems, rfl⟩)

end OrderedMap

end MoeStream.Foundation
