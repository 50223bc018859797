import Mathlib.Data.List.Basic
import Mathlib.Data.List.Induction
import Mathlib.Order.Lattice

/-!
# Trying each candidate, then keeping the best

The candidates are tried in the order of a list, one at a time; what was tried
stays tried, so each trial leaves fewer.  The best of the scored values is found
by a fold that keeps the first of the largest.
-/

set_option autoImplicit false

namespace MoeStream.Foundation.TryEach

variable {α β : Type}

/-! ## Candidates left -/

def left (tried : α → Bool) (candidates : List α) : Nat :=
  candidates.countP fun c => !tried c

theorem left_le (tried : α → Bool) (candidates : List α) :
    left tried candidates ≤ candidates.length :=
  List.countP_le_length

theorem left_mono {tried tried' : α → Bool} (kept : ∀ c, tried c = true → tried' c = true)
    (candidates : List α) : left tried' candidates ≤ left tried candidates := by
  apply List.countP_mono_left
  intro c _ untried
  rw [Bool.not_eq_true'] at untried ⊢
  by_contra before
  rw [kept c (by simpa using before)] at untried
  cases untried

theorem left_lt {tried tried' : α → Bool} (kept : ∀ c, tried c = true → tried' c = true)
    {candidates : List α} {c : α} (listed : c ∈ candidates) (untried : tried c = false)
    (done : tried' c = true) : left tried' candidates < left tried candidates := by
  induction candidates with
  | nil => cases listed
  | cons head rest ih =>
      have others := left_mono kept rest
      simp only [left, List.countP_cons] at ih others ⊢
      rcases List.mem_cons.mp listed with rfl | later
      · simp only [untried, done, Bool.not_false, Bool.not_true, if_true, Bool.false_eq_true,
          if_false]
        omega
      · have fewer := ih later
        by_cases before : tried head = true
        · simp only [before, kept head before, Bool.not_true, Bool.false_eq_true, if_false]
          omega
        · simp only [Bool.eq_false_iff.mpr before, Bool.not_false, if_true]
          split <;> omega

theorem left_eq_zero {tried : α → Bool} {candidates : List α} :
    left tried candidates = 0 ↔ ∀ c ∈ candidates, tried c = true := by
  simp [left, List.countP_eq_zero]

/-! ## The best -/

/-- The first of the values with the largest score, starting from `held`. -/
def best [LinearOrder α] (held : α × β) (scored : List (α × β)) : α × β :=
  scored.foldl (fun held next => if held.1 < next.1 then next else held) held

theorem best_mem [LinearOrder α] (held : α × β) (scored : List (α × β)) :
    best held scored ∈ held :: scored := by
  induction scored generalizing held with
  | nil => exact List.mem_singleton.mpr rfl
  | cons next rest ih =>
      rcases List.mem_cons.mp (ih (if held.1 < next.1 then next else held)) with same | later
      · have chosen : best held (next :: rest) = if held.1 < next.1 then next else held := same
        rw [chosen]
        split
        · exact List.mem_cons_of_mem _ List.mem_cons_self
        · exact List.mem_cons_self
      · exact List.mem_cons_of_mem _ (List.mem_cons_of_mem _ later)

theorem le_best [LinearOrder α] (held : α × β) (scored : List (α × β)) :
    ∀ value ∈ held :: scored, value.1 ≤ (best held scored).1 := by
  induction scored generalizing held with
  | nil =>
      intro value member
      rw [List.mem_singleton.mp member]
      exact le_refl _
  | cons next rest ih =>
      have reached := ih (if held.1 < next.1 then next else held)
      have kept := reached _ List.mem_cons_self
      intro value member
      change value.1 ≤ (best (if held.1 < next.1 then next else held) rest).1
      rcases List.mem_cons.mp member with rfl | member
      · apply le_trans ?_ kept
        split
        · rename_i less
          exact le_of_lt less
        · exact le_refl _
      · rcases List.mem_cons.mp member with rfl | member
        · apply le_trans ?_ kept
          split
          · exact le_refl _
          · rename_i less
            exact not_lt.mp less
        · exact reached value (List.mem_cons_of_mem _ member)

theorem best_of_le [LinearOrder α] {held : α × β} {scored : List (α × β)}
    (most : ∀ value ∈ scored, value.1 ≤ held.1) : best held scored = held := by
  induction scored with
  | nil => rfl
  | cons next rest ih =>
      have kept : ¬held.1 < next.1 := not_lt.mpr (most next List.mem_cons_self)
      rw [best, List.foldl_cons, if_neg kept]
      exact ih fun value member => most value (List.mem_cons_of_mem _ member)

theorem best_first [LinearOrder α] {held value : α × β} {before after : List (α × β)}
    (above : ∀ earlier ∈ held :: before, earlier.1 < value.1)
    (most : ∀ later ∈ after, later.1 ≤ value.1) :
    best held (before ++ value :: after) = value := by
  have less := above _ (best_mem held before)
  rw [best, List.foldl_append, List.foldl_cons]
  change best (if (best held before).1 < value.1 then value else best held before) after = value
  rw [if_pos less]
  exact best_of_le most

theorem best_cases [LinearOrder α] (held : α × β) (scored : List (α × β)) :
    (∀ value ∈ scored, value.1 ≤ held.1) ∨
      ∃ before value after, scored = before ++ value :: after ∧
        (∀ earlier ∈ held :: before, earlier.1 < value.1) ∧
        ∀ later ∈ after, later.1 ≤ value.1 := by
  induction scored using List.reverseRecOn with
  | nil => exact Or.inl nofun
  | append_singleton scored last ih =>
      rcases ih with none | ⟨before, value, after, rfl, above, most⟩
      · rcases lt_or_ge held.1 last.1 with less | le
        · refine Or.inr ⟨scored, last, [], rfl, ?_, nofun⟩
          intro earlier member
          rcases List.mem_cons.mp member with rfl | listed
          · exact less
          · exact lt_of_le_of_lt (none earlier listed) less
        · refine Or.inl fun value member => ?_
          rcases List.mem_append.mp member with listed | new
          · exact none value listed
          · exact List.mem_singleton.mp new ▸ le
      · rcases lt_or_ge value.1 last.1 with less | le
        · refine Or.inr ⟨before ++ value :: after, last, [], rfl, ?_, nofun⟩
          intro earlier member
          rcases List.mem_cons.mp member with rfl | listed
          · exact (above earlier List.mem_cons_self).trans less
          · rcases List.mem_append.mp listed with first | rest
            · exact (above earlier (List.mem_cons_of_mem _ first)).trans less
            · rcases List.mem_cons.mp rest with rfl | later
              · exact less
              · exact lt_of_le_of_lt (most earlier later) less
        · refine Or.inr ⟨before, value, after ++ [last], by simp, above, ?_⟩
          intro later member
          rcases List.mem_append.mp member with listed | new
          · exact most later listed
          · exact List.mem_singleton.mp new ▸ le

end MoeStream.Foundation.TryEach
