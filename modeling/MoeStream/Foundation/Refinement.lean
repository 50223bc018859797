import Mathlib.Logic.Relation
import Mathlib.Order.WellFounded

/-!
# Total refinement of a deterministic program

An implementation takes many steps, in an order nobody fixes, for one step of a
program that is deterministic.  When every step of it either leaves the view of
the program alone or is a step of the program, grows smaller in a well-founded
order, and is possible as long as the program is not done, then no run of it is
infinite and every run ends with what the program computes.
-/

set_option autoImplicit false

namespace MoeStream.Foundation.Refinement

open Relation

variable {σ τ μ : Type}

def Stuck (step : σ → σ → Prop) (s : σ) : Prop := ∀ s', ¬step s s'

/-- An implementation of `spec` on the states that are `good`. -/
structure Refines [LT μ] (step : σ → σ → Prop) (spec : τ → τ → Prop) (view : σ → τ)
    (good : σ → Prop) (size : σ → μ) : Prop where
  keeps : ∀ {s s'}, good s → step s s' → good s'
  follows : ∀ {s s'}, good s → step s s' → view s' = view s ∨ spec (view s) (view s')
  shrinks : ∀ {s s'}, good s → step s s' → size s' < size s
  onward : ∀ {s t}, good s → spec (view s) t → ∃ s', step s s'

/-- Every run from `s` is finite, can be continued to an end, and ends in a state
with the view `t`. -/
structure Computes (step : σ → σ → Prop) (view : σ → τ) (s : σ) (t : τ) : Prop where
  finite : ¬∃ run : Nat → σ, run 0 = s ∧ ∀ n, step (run n) (run (n + 1))
  ends : ∀ {s'}, ReflTransGen step s s' → ∃ last, ReflTransGen step s' last ∧ Stuck step last
  result : ∀ {last}, ReflTransGen step s last → Stuck step last → view last = t

namespace Refines

variable [LT μ] {step : σ → σ → Prop} {spec : τ → τ → Prop} {view : σ → τ} {good : σ → Prop}
  {size : σ → μ} (refines : Refines step spec view good size)

include refines

theorem run {s s' : σ} (start : good s) (steps : ReflTransGen step s s') :
    good s' ∧ ReflTransGen spec (view s) (view s') := by
  induction steps with
  | refl => exact ⟨start, .refl⟩
  | tail _ step ih =>
      obtain ⟨here, before⟩ := ih
      refine ⟨refines.keeps here step, ?_⟩
      rcases refines.follows here step with same | next
      · rw [same]
        exact before
      · exact before.tail next

theorem no_infinite_run [WellFoundedLT μ] {s : σ} (start : good s) :
    ¬∃ run : Nat → σ, run 0 = s ∧ ∀ n, step (run n) (run (n + 1)) := by
  rintro ⟨run, first, steps⟩
  have held : ∀ n, good (run n) := by
    intro n
    induction n with
    | zero =>
        rw [first]
        exact start
    | succ n ih => exact refines.keeps ih (steps n)
  obtain ⟨n, stops⟩ := WellFounded.not_rel_apply_succ (r := (· < ·)) fun n => size (run n)
  exact stops (refines.shrinks (held n) (steps n))

theorem exists_stuck [WellFoundedLT μ] {s : σ} (start : good s) :
    ∃ last, ReflTransGen step s last ∧ Stuck step last := by
  induction measure : size s using WellFoundedLT.induction generalizing s with
  | ind m ih =>
      subst measure
      by_cases stuck : Stuck step s
      · exact ⟨s, .refl, stuck⟩
      · obtain ⟨s', next⟩ := not_forall_not.mp stuck
        obtain ⟨last, rest, ended⟩ :=
          ih (size s') (refines.shrinks start next) (refines.keeps start next) rfl
        exact ⟨last, .head next rest, ended⟩

theorem stuck_spec {s : σ} (start : good s) (stuck : Stuck step s) : Stuck spec (view s) := by
  intro t next
  obtain ⟨s', possible⟩ := refines.onward start next
  exact stuck s' possible

theorem computes [WellFoundedLT μ] (deterministic : Relator.RightUnique spec) {s : σ} {t : τ}
    (start : good s) (program : ReflTransGen spec (view s) t) (ended : Stuck spec t) :
    Computes step view s t := by
  refine ⟨refines.no_infinite_run start, ?_, ?_⟩
  · intro s' steps
    exact refines.exists_stuck (refines.run start steps).1
  · intro last steps stuck
    obtain ⟨here, run⟩ := refines.run start steps
    have stop := refines.stuck_spec here stuck
    -- both are ends of one deterministic run
    rcases ReflTransGen.total_of_right_unique deterministic run program with onward | back
    · rcases ReflTransGen.cases_head onward with same | ⟨next, first, -⟩
      · exact same
      · exact absurd first (stop next)
    · rcases ReflTransGen.cases_head back with same | ⟨next, first, -⟩
      · exact same.symm
      · exact absurd first (ended next)

end Refines

end MoeStream.Foundation.Refinement
