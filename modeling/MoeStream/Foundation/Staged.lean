import Mathlib.Logic.Relation

/-!
# Programs in stages

A program takes its inputs one after another; each is fed to it and then goes
through the stages it asks for.  Stage by stage this is a deterministic program,
and it comes to an end with the result of all inputs.
-/

set_option autoImplicit false

namespace MoeStream.Foundation

open Relation

structure Staged (B S X : Type) where
  feed : B → X → X
  stages : B → List S
  apply : S → X → X

/-- What is left to do: the stages of the current input and the inputs. -/
structure Progress (B S X : Type) where
  x : X
  todo : List S
  inputs : List B

namespace Staged

variable {B S X : Type} (p : Staged B S X)

def input (x : X) (b : B) : X := (p.stages b).foldl (fun x s => p.apply s x) (p.feed b x)

def run (x : X) (inputs : List B) : X := inputs.foldl p.input x

inductive Next : Progress B S X → Progress B S X → Prop
  | feed {x b inputs} : Next ⟨x, [], b :: inputs⟩ ⟨p.feed b x, p.stages b, inputs⟩
  | stage {x s todo inputs} : Next ⟨x, s :: todo, inputs⟩ ⟨p.apply s x, todo, inputs⟩

variable {p}

theorem next_deterministic : Relator.RightUnique p.Next := by
  intro q r r' first second
  cases first <;> cases second <;> rfl

theorem next_stages (x : X) (todo : List S) (inputs : List B) :
    ReflTransGen p.Next ⟨x, todo, inputs⟩
      ⟨todo.foldl (fun x s => p.apply s x) x, [], inputs⟩ := by
  induction todo generalizing x with
  | nil => exact .refl
  | cons s rest ih => exact .head .stage (ih _)

theorem next_run (x : X) (inputs : List B) :
    ReflTransGen p.Next ⟨x, [], inputs⟩ ⟨p.run x inputs, [], []⟩ := by
  induction inputs generalizing x with
  | nil => exact .refl
  | cons b rest ih =>
      have stages : ReflTransGen p.Next ⟨p.feed b x, p.stages b, rest⟩
          ⟨p.input x b, [], rest⟩ := next_stages _ _ _
      exact .head .feed (stages.trans (ih _))

theorem next_end (x : X) (q : Progress B S X) : ¬p.Next ⟨x, [], []⟩ q := by
  intro next
  cases next

end Staged

end MoeStream.Foundation
