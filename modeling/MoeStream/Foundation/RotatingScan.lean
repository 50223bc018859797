import Mathlib.Data.List.Basic

/-!
# Bounded scan of a rotating queue

A scan visits the front of a queue at most `n` times.  A visited element is
either kept, and goes to the back of the queue, or taken, and ends the scan.
Visiting may change a side state, which is how a second chance is spent.

When the bound is the length of the queue, every element is visited once: the
scan either keeps all of them and leaves the queue exactly as it was, or splits
the queue around the first element that is taken.
-/

set_option autoImplicit false

namespace MoeStream.Foundation.RotatingScan

variable {σ α : Type}

inductive Visit (σ : Type) where
  | keep (side : σ)
  | take

/-- Visit the front at most `n` times; the result is the side state, the queue
and the element that was taken, if any. -/
def scan (visit : σ → α → Visit σ) : Nat → σ → List α → σ × List α × Option α
  | 0, side, queue => (side, queue, none)
  | _ + 1, side, [] => (side, [], none)
  | n + 1, side, front :: rest =>
      match visit side front with
      | .keep next => scan visit n next (rest ++ [front])
      | .take => (side, rest, some front)

/-- Every element of the list is kept, one after another. -/
inductive Kept (visit : σ → α → Visit σ) : σ → List α → σ → Prop where
  | nil (side : σ) : Kept visit side [] side
  | cons {side next final : σ} {front : α} {rest : List α}
      (kept : visit side front = .keep next) (tail : Kept visit next rest final) :
      Kept visit side (front :: rest) final

/-- The scan of a whole queue, followed by what was rotated behind it. -/
theorem scan_append (visit : σ → α → Visit σ) (queue rotated : List α) (side : σ) :
    (∃ final, Kept visit side queue final ∧
      scan visit queue.length side (queue ++ rotated) =
        (final, rotated ++ queue, none)) ∨
    (∃ before victim after final, queue = before ++ victim :: after ∧
      Kept visit side before final ∧ visit final victim = .take ∧
      scan visit queue.length side (queue ++ rotated) =
        (final, after ++ rotated ++ before, some victim)) := by
  induction queue generalizing side rotated with
  | nil =>
      refine Or.inl ⟨side, .nil side, ?_⟩
      simp [scan]
  | cons front rest ih =>
      cases decision : visit side front with
      | take =>
          refine Or.inr ⟨[], front, rest, side, rfl, .nil side, decision, ?_⟩
          simp [scan, decision]
      | keep next =>
          have step : scan visit (front :: rest).length side (front :: rest ++ rotated) =
              scan visit rest.length next (rest ++ (rotated ++ [front])) := by
            simp [scan, decision, List.append_assoc]
          rw [step]
          rcases ih (rotated ++ [front]) next with
            ⟨final, kept, result⟩ | ⟨before, victim, after, final, split, kept, taken, result⟩
          · refine Or.inl ⟨final, .cons decision kept, ?_⟩
            rw [result]
            simp
          · refine Or.inr ⟨front :: before, victim, after, final, ?_,
              .cons decision kept, taken, ?_⟩
            · rw [split]
              rfl
            · rw [result]
              simp

/-- The scan of a whole queue keeps everything and restores the queue, or
takes the first element that is not kept. -/
theorem scan_length (visit : σ → α → Visit σ) (queue : List α) (side : σ) :
    (∃ final, Kept visit side queue final ∧
      scan visit queue.length side queue = (final, queue, none)) ∨
    (∃ before victim after final, queue = before ++ victim :: after ∧
      Kept visit side before final ∧ visit final victim = .take ∧
      scan visit queue.length side queue = (final, after ++ before, some victim)) := by
  have whole := scan_append visit queue [] side
  simpa using whole

theorem first_or_none (p : α → Prop) [DecidablePred p] (queue : List α) :
    (∀ e ∈ queue, ¬p e) ∨
      ∃ before v after, queue = before ++ v :: after ∧ (∀ e ∈ before, ¬p e) ∧ p v := by
  cases found : queue.find? fun e => decide (p e) with
  | none =>
      left
      intro e member
      have lacks := List.find?_eq_none.mp found e member
      simpa using lacks
  | some v =>
      right
      obtain ⟨here, before, after, split, skipped⟩ := List.find?_eq_some_iff_append.mp found
      refine ⟨before, v, after, split, ?_, by simpa using here⟩
      intro e member
      have lacks := skipped e member
      simpa using lacks

theorem first_unique {p : α → Prop} {before before' after after' : List α} {v v' : α}
    (same : before ++ v :: after = before' ++ v' :: after') (skipped : ∀ e ∈ before, ¬p e)
    (here : p v) (skipped' : ∀ e ∈ before', ¬p e) (here' : p v') :
    before = before' ∧ v = v' ∧ after = after' := by
  induction before generalizing before' with
  | nil =>
      cases before' with
      | nil =>
          obtain ⟨rfl, rfl⟩ := List.cons.inj same
          exact ⟨rfl, rfl, rfl⟩
      | cons e rest =>
          obtain ⟨rfl, _⟩ := List.cons.inj same
          exact absurd here (skipped' v List.mem_cons_self)
  | cons e rest ih =>
      cases before' with
      | nil =>
          obtain ⟨rfl, _⟩ := List.cons.inj same
          exact absurd here' (skipped e List.mem_cons_self)
      | cons e' rest' =>
          obtain ⟨rfl, tail⟩ := List.cons.inj same
          obtain ⟨rfl, rest⟩ := ih tail (fun k member => skipped k (List.mem_cons_of_mem e member))
            (fun k member => skipped' k (List.mem_cons_of_mem e member))
          exact ⟨rfl, rest⟩

end MoeStream.Foundation.RotatingScan
