import Mathlib.Data.List.Range
import Mathlib.Logic.Function.Basic

/-!
# Memory under lists of single writes

A memory gives each cell a value.  Concurrent writers are lists of single
writes, and an execution of several of them is any order of all their writes.
When the writes to each cell agree on its value the order does not matter, so a
result is read off membership in the list, which no reordering changes.
-/

set_option autoImplicit false

namespace MoeStream.Foundation.Writes

variable {α β : Type} [DecidableEq α]

def applyWrites (mem : α → β) (ws : List (α × β)) : α → β :=
  ws.foldl (fun mem w => Function.update mem w.1 w.2) mem

@[simp] theorem applyWrites_nil (mem : α → β) : applyWrites mem [] = mem := rfl

@[simp] theorem applyWrites_cons (mem : α → β) (w : α × β) (ws : List (α × β)) :
    applyWrites mem (w :: ws) = applyWrites (Function.update mem w.1 w.2) ws := rfl

theorem applyWrites_append (mem : α → β) (first second : List (α × β)) :
    applyWrites mem (first ++ second) = applyWrites (applyWrites mem first) second :=
  List.foldl_append

theorem applyWrites_other (mem : α → β) (ws : List (α × β)) (a : α)
    (untouched : ∀ b, (a, b) ∉ ws) : applyWrites mem ws a = mem a := by
  induction ws generalizing mem with
  | nil => rfl
  | cons w ws ih =>
      have different : a ≠ w.1 := by
        intro same
        refine untouched w.2 ?_
        rw [same]
        exact List.mem_cons_self
      rw [applyWrites_cons, ih _ fun b member => untouched b (List.mem_cons_of_mem w member),
        Function.update_of_ne different]

theorem applyWrites_mem (mem : α → β) (ws : List (α × β)) (a : α)
    (written : ∃ b, (a, b) ∈ ws) : (a, applyWrites mem ws a) ∈ ws := by
  induction ws generalizing mem with
  | nil =>
      obtain ⟨b, member⟩ := written
      cases member
  | cons w ws ih =>
      rw [applyWrites_cons]
      by_cases later : ∃ b, (a, b) ∈ ws
      · exact List.mem_cons_of_mem w (ih _ later)
      · have last : ∀ b, (a, b) ∉ ws := fun b member => later ⟨b, member⟩
        rw [applyWrites_other _ ws a last]
        obtain ⟨b, member⟩ := written
        rcases List.mem_cons.mp member with same | member
        · subst same
          simp
        · exact absurd member (last b)

theorem applyWrites_eq (mem : α → β) (ws : List (α × β)) {a : α} {b : β}
    (written : (a, b) ∈ ws) (agree : ∀ b', (a, b') ∈ ws → b' = b) :
    applyWrites mem ws a = b :=
  agree _ (applyWrites_mem mem ws a ⟨b, written⟩)

/-- A cell all of whose writes agree has the value they write exactly if it is
written or had that value before. -/
theorem applyWrites_agreed (mem : α → β) (ws : List (α × β)) {a : α} {b : β}
    (agree : ∀ b', (a, b') ∈ ws → b' = b) :
    applyWrites mem ws a = b ↔ (a, b) ∈ ws ∨ mem a = b := by
  by_cases written : (a, b) ∈ ws
  · exact ⟨fun _ => Or.inl written, fun _ => applyWrites_eq mem ws written agree⟩
  · have untouched : ∀ b', (a, b') ∉ ws := by
      intro b' member
      rw [agree b' member] at member
      exact written member
    rw [applyWrites_other mem ws a untouched]
    exact ⟨Or.inr, fun before => before.resolve_left written⟩

/-- The value of a cell depends on the memory before only through that cell. -/
theorem applyWrites_congr {mem mem' : α → β} {ws : List (α × β)} {a : α}
    (same : mem a = mem' a) : applyWrites mem ws a = applyWrites mem' ws a := by
  induction ws generalizing mem mem' with
  | nil => exact same
  | cons w ws ih =>
      rw [applyWrites_cons, applyWrites_cons]
      apply ih
      by_cases own : a = w.1
      · rw [own, Function.update_self, Function.update_self]
      · rw [Function.update_of_ne own, Function.update_of_ne own, same]

theorem applyWrites_perm (mem : α → β) {ws ws' : List (α × β)} (perm : ws.Perm ws') {a : α}
    (agree : ∀ b b', (a, b) ∈ ws → (a, b') ∈ ws → b = b') :
    applyWrites mem ws a = applyWrites mem ws' a := by
  by_cases written : ∃ b, (a, b) ∈ ws
  · obtain ⟨b, member⟩ := written
    have only : ∀ b', (a, b') ∈ ws → b' = b := fun b' other => agree b' b other member
    rw [applyWrites_eq mem ws member only, applyWrites_eq mem ws' (perm.mem_iff.mp member)]
    exact fun b' other => only b' (perm.mem_iff.mpr other)
  · rw [applyWrites_other mem ws a fun b member => written ⟨b, member⟩,
      applyWrites_other mem ws' a fun b member => written ⟨b, perm.mem_iff.mpr member⟩]

/-! ## Regions -/

/-- Write `data 0, …, data (n - 1)` to the cells `cell 0, …, cell (n - 1)`. -/
def region (cell : Nat → α) (n : Nat) (data : Nat → β) : List (α × β) :=
  (List.range n).map fun i => (cell i, data i)

omit [DecidableEq α] in
theorem mem_region {cell : Nat → α} {n : Nat} {data : Nat → β} {a : α} {b : β} :
    (a, b) ∈ region cell n data ↔ ∃ i, i < n ∧ a = cell i ∧ b = data i := by
  simp only [region]
  rw [List.mem_map]
  constructor
  · rintro ⟨i, member, pair⟩
    have parts := Prod.mk.inj pair
    exact ⟨i, List.mem_range.mp member, parts.1.symm, parts.2.symm⟩
  · rintro ⟨i, bound, first, second⟩
    exact ⟨i, List.mem_range.mpr bound, by rw [first, second]⟩

/-- Two positions of a row of slots of equal width are the same only in the
same slot. -/
theorem slot_inj {width s s' i i' : Nat} (inside : i < width) (inside' : i' < width)
    (same : s * width + i = s' * width + i') : s = s' ∧ i = i' := by
  have positive : 0 < width := by omega
  have quotients := congrArg (· / width) same
  simp only [Nat.mul_comm _ width, Nat.mul_add_div positive, Nat.div_eq_of_lt inside,
    Nat.div_eq_of_lt inside', Nat.add_zero] at quotients
  subst quotients
  exact ⟨rfl, by omega⟩

end MoeStream.Foundation.Writes
