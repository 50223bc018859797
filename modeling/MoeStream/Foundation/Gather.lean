import Mathlib.Logic.Function.Basic
import Mathlib.Tactic.Tauto

/-!
# Reading one by one

A reader that takes its keys one at a time, in any order, from a store others may
be writing.  When each read returns what is wanted of its key, so does the whole.
-/

set_option autoImplicit false

namespace MoeStream.Foundation

variable {κ β : Type}

structure Gather (κ β : Type) where
  left : List κ
  seen : κ → β

namespace Gather

/-- What was read of `all` is what was wanted. -/
structure Sound (all : List κ) (want : κ → β) (g : Gather κ β) : Prop where
  inside : ∀ k ∈ g.left, k ∈ all
  right : ∀ k ∈ all, k ∉ g.left → g.seen k = want k

variable {all : List κ} {want : κ → β}

theorem Sound.start (all : List κ) (want seen : κ → β) : Sound all want ⟨all, seen⟩ :=
  ⟨fun _ listed => listed, fun _ listed other => absurd listed other⟩

theorem Sound.look [DecidableEq κ] {first later : List κ} {k : κ} {seen : κ → β}
    (sound : Sound all want ⟨first ++ k :: later, seen⟩) {value : β}
    (read : k ∈ all → value = want k) :
    Sound all want ⟨first ++ later, Function.update seen k value⟩ := by
  refine ⟨?_, ?_⟩
  · intro other listed
    apply sound.inside other
    simp only [List.mem_append, List.mem_cons] at listed ⊢
    tauto
  · intro other member done
    dsimp only at done ⊢
    by_cases same : other = k
    · subst same
      rw [Function.update_self]
      exact read member
    · rw [Function.update_of_ne same]
      apply sound.right other member
      simp only [List.mem_append, List.mem_cons] at done ⊢
      tauto

theorem Sound.done {seen : κ → β} (sound : Sound all want ⟨[], seen⟩) {k : κ} (listed : k ∈ all) :
    seen k = want k :=
  sound.right k listed List.not_mem_nil

end Gather

end MoeStream.Foundation
