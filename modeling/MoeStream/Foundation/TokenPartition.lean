import Mathlib.Data.List.Nodup
import Mathlib.Data.List.Range
import Mathlib.Logic.Function.Basic

/-!
# Tokens split between a free list and their holders

A fixed list of tokens is divided between a free list and `n` holders, each
holding at most one.  The division is stated as one permutation, so that no
token is lost, duplicated or held twice; taking a free token and giving one
back keep it.
-/

set_option autoImplicit false

namespace MoeStream.Foundation.TokenPartition

open scoped List

variable {γ : Type}

/-- The tokens held by the first `n` holders, in the order of the holders. -/
def owned (n : Nat) (holds : Nat → Option γ) : List γ :=
  (List.range n).filterMap holds

theorem owned_succ (n : Nat) (holds : Nat → Option γ) :
    owned (n + 1) holds = owned n holds ++ (holds n).toList := by
  cases held : holds n <;> simp [owned, List.range_succ, List.filterMap_append, held]

theorem owned_congr {n : Nat} {first second : Nat → Option γ}
    (same : ∀ i, i < n → first i = second i) : owned n first = owned n second := by
  refine List.filterMap_congr ?_
  intro i member
  exact same i (List.mem_range.mp member)

theorem mem_owned {n : Nat} {holds : Nat → Option γ} {token : γ} :
    token ∈ owned n holds ↔ ∃ i, i < n ∧ holds i = some token := by
  simp [owned, List.mem_filterMap]

/-- Replacing what one holder holds exchanges exactly the two tokens involved. -/
theorem owned_update_perm (n : Nat) (holds : Nat → Option γ) (i : Nat) (inside : i < n)
    (next : Option γ) :
    (owned n (Function.update holds i next) ++ (holds i).toList).Perm
      (owned n holds ++ next.toList) := by
  induction n with
  | zero => exact absurd inside (Nat.not_lt_zero i)
  | succ n ih =>
      rw [owned_succ, owned_succ]
      by_cases last : i = n
      · subst last
        have before : owned i (Function.update holds i next) = owned i holds :=
          owned_congr fun k smaller => Function.update_of_ne (Nat.ne_of_lt smaller) next holds
        rw [before, Function.update_self, List.append_assoc, List.append_assoc]
        exact List.Perm.append_left _ List.perm_append_comm
      · have smaller : i < n := by omega
        have ordered := ih smaller
        rw [Function.update_of_ne (Ne.symm last)]
        calc
          owned n (Function.update holds i next) ++ (holds n).toList ++ (holds i).toList
              ~ owned n (Function.update holds i next) ++ (holds i).toList ++
                  (holds n).toList := by
                rw [List.append_assoc, List.append_assoc]
                exact List.Perm.append_left _ List.perm_append_comm
          _ ~ owned n holds ++ next.toList ++ (holds n).toList :=
                List.Perm.append_right _ ordered
          _ ~ owned n holds ++ (holds n).toList ++ next.toList := by
                rw [List.append_assoc, List.append_assoc]
                exact List.Perm.append_left _ List.perm_append_comm

/-- The free list and the held tokens together are exactly `tokens`. -/
structure Partition (tokens free : List γ) (n : Nat) (holds : Nat → Option γ) : Prop where
  perm : (free ++ owned n holds).Perm tokens

namespace Partition

variable {tokens free : List γ} {n : Nat} {holds : Nat → Option γ}

theorem take {token : γ} {i : Nat} (partition : Partition tokens (token :: free) n holds)
    (inside : i < n) (empty : holds i = none) :
    Partition tokens free n (Function.update holds i (some token)) := by
  refine ⟨List.Perm.trans ?_ partition.perm⟩
  have exchanged := owned_update_perm n holds i inside (some token)
  rw [empty] at exchanged
  simp only [Option.toList_none, List.append_nil, Option.toList_some] at exchanged
  calc
    free ++ owned n (Function.update holds i (some token))
        ~ free ++ (owned n holds ++ [token]) := List.Perm.append_left _ exchanged
    _ ~ token :: (free ++ owned n holds) := by
          rw [← List.append_assoc]
          exact List.perm_append_singleton _ _

theorem give {token : γ} {i : Nat} (partition : Partition tokens free n holds)
    (inside : i < n) (held : holds i = some token) :
    Partition tokens (token :: free) n (Function.update holds i none) := by
  refine ⟨List.Perm.trans ?_ partition.perm⟩
  have exchanged := owned_update_perm n holds i inside none
  rw [held] at exchanged
  simp only [Option.toList_none, List.append_nil, Option.toList_some] at exchanged
  calc
    token :: free ++ owned n (Function.update holds i none)
        ~ free ++ (owned n (Function.update holds i none) ++ [token]) := by
          rw [← List.append_assoc]
          exact (List.perm_append_singleton _ _).symm
    _ ~ free ++ owned n holds := List.Perm.append_left _ exchanged

theorem held_mem {token : γ} {i : Nat} (partition : Partition tokens free n holds)
    (inside : i < n) (held : holds i = some token) : token ∈ tokens := by
  refine partition.perm.subset ?_
  exact List.mem_append_right _ (mem_owned.mpr ⟨i, inside, held⟩)

theorem free_mem {token : γ} (partition : Partition tokens free n holds)
    (member : token ∈ free) : token ∈ tokens :=
  partition.perm.subset (List.mem_append_left _ member)

theorem held_not_free {token : γ} {i : Nat} (partition : Partition tokens free n holds)
    (distinct : tokens.Nodup) (inside : i < n) (held : holds i = some token) :
    token ∉ free := by
  intro member
  have nodup := partition.perm.nodup_iff.mpr distinct
  have disjoint := (List.nodup_append.mp nodup).2.2
  exact disjoint token member token (mem_owned.mpr ⟨i, inside, held⟩) rfl

theorem holder_unique {token : γ} {i j : Nat} (partition : Partition tokens free n holds)
    (distinct : tokens.Nodup) (insideI : i < n) (insideJ : j < n)
    (heldI : holds i = some token) (heldJ : holds j = some token) : i = j := by
  by_contra different
  have returned := partition.give insideI heldI
  have stillHeld : Function.update holds i none j = some token := by
    rw [Function.update_of_ne (Ne.symm different), heldJ]
  exact returned.held_not_free distinct insideJ stillHeld List.mem_cons_self

theorem length_eq (partition : Partition tokens free n holds) :
    free.length + (owned n holds).length = tokens.length := by
  rw [← List.length_append]
  exact partition.perm.length_eq

end Partition

theorem Partition.initial (tokens : List γ) (n : Nat) :
    Partition tokens tokens n (fun _ => none) :=
  ⟨by simp [owned]⟩

end MoeStream.Foundation.TokenPartition
