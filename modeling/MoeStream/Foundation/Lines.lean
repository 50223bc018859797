import Mathlib.Data.List.Forall2

/-!
# Terminated lines

Texts that end with a terminator and hold it nowhere else.  They can be told
apart once they are joined, and a text of which only a part was written cannot
pass for others, but in two ways.
-/

set_option autoImplicit false

namespace MoeStream.Foundation.Lines

universe u

/-- A text with the terminator at its end and only there. -/
def Terminated {Symbol : Type u} (stop : Symbol) (line : List Symbol) : Prop :=
  ∃ body, stop ∉ body ∧ line = body ++ [stop]

variable {Symbol : Type u} {stop : Symbol} {line line' row : List Symbol}
  {lines lines' parts : List (List Symbol)}

theorem Terminated.ne_nil (ended : Terminated stop line) : line ≠ [] := by
  obtain ⟨body, -, rfl⟩ := ended
  simp

theorem Terminated.part (ended : Terminated stop line) {part : List Symbol}
    (front : part <+: line) : part = line ∨ stop ∉ part := by
  obtain ⟨body, clean, rfl⟩ := ended
  rcases List.prefix_concat_iff.mp front with whole | short
  · exact Or.inl whole
  · exact Or.inr fun member => clean (short.subset member)

theorem Terminated.append_inj (ended : Terminated stop line) (ended' : Terminated stop line')
    {rest rest' : List Symbol} (same : line ++ rest = line' ++ rest') :
    line = line' ∧ rest = rest' := by
  have first : line = line' := by
    have front : line <+: line' ++ rest' := ⟨rest, same⟩
    have front' : line' <+: line' ++ rest' := List.prefix_append _ _
    rcases List.prefix_or_prefix_of_prefix front front' with short | short
    · rcases ended'.part short with whole | clean
      · exact whole
      · obtain ⟨body, -, rfl⟩ := ended
        exact absurd (by simp) clean
    · rcases ended.part short with whole | clean
      · exact whole.symm
      · obtain ⟨body, -, rfl⟩ := ended'
        exact absurd (by simp) clean
  subst first
  exact ⟨rfl, List.append_cancel_left same⟩

theorem Terminated.prepend (ended : Terminated stop line) {part : List Symbol}
    (clean : stop ∉ part) : Terminated stop (part ++ line) := by
  obtain ⟨body, absent, rfl⟩ := ended
  exact ⟨part ++ body, fun member => (List.mem_append.mp member).elim clean absent,
    (List.append_assoc _ _ _).symm⟩

theorem flatten_front (ended : ∀ l ∈ lines, Terminated stop l)
    (ended' : ∀ l ∈ lines', Terminated stop l) (count : lines.length = lines'.length)
    {rest : List Symbol} (front : lines.flatten <+: lines'.flatten ++ rest) : lines = lines' := by
  induction lines generalizing lines' with
  | nil => exact (List.eq_nil_of_length_eq_zero count.symm).symm
  | cons l lines ih =>
      cases lines' with
      | nil => simp at count
      | cons l' lines' =>
          obtain ⟨tail, same⟩ := front
          simp only [List.flatten_cons, List.append_assoc] at same
          obtain ⟨rfl, left⟩ := (ended l List.mem_cons_self).append_inj
            (ended' l' List.mem_cons_self) same
          rw [ih (fun k member => ended k (List.mem_cons_of_mem _ member))
            (fun k member => ended' k (List.mem_cons_of_mem _ member)) (by simpa using count)
            ⟨tail, left⟩]

theorem flatten_inj (ended : ∀ l ∈ lines, Terminated stop l)
    (ended' : ∀ l ∈ lines', Terminated stop l) (same : lines.flatten = lines'.flatten) :
    lines = lines' := by
  induction lines generalizing lines' with
  | nil =>
      cases lines' with
      | nil => rfl
      | cons l' lines' =>
          have some := (ended' l' List.mem_cons_self).ne_nil
          simp only [List.flatten_nil, List.flatten_cons, List.nil_eq, List.append_eq_nil_iff]
            at same
          exact absurd same.1 some
  | cons l lines ih =>
      cases lines' with
      | nil =>
          have some := (ended l List.mem_cons_self).ne_nil
          simp only [List.flatten_nil, List.flatten_cons, List.append_eq_nil_iff] at same
          exact absurd same.1 some
      | cons l' lines' =>
          simp only [List.flatten_cons] at same
          obtain ⟨rfl, left⟩ := (ended l List.mem_cons_self).append_inj
            (ended' l' List.mem_cons_self) same
          rw [ih (fun k member => ended k (List.mem_cons_of_mem _ member))
            (fun k member => ended' k (List.mem_cons_of_mem _ member)) left]

/-- Split at the terminator, lines are their bodies, and an empty piece. -/
theorem splitOn_lines [BEq Symbol] [LawfulBEq Symbol] {bodies : List (List Symbol)}
    (clean : ∀ body ∈ bodies, stop ∉ body) :
    (bodies.map fun body => body ++ [stop]).flatten.splitOn stop = bodies ++ [[]] := by
  induction bodies with
  | nil => rfl
  | cons body bodies ih =>
      rw [List.map_cons, List.flatten_cons, List.append_assoc, List.singleton_append,
        List.splitOn_append_cons_self_of_not_mem (clean body List.mem_cons_self),
        ih fun other member => clean other (List.mem_cons_of_mem _ member), List.cons_append]

variable [DecidableEq Symbol]

theorem Terminated.count (ended : Terminated stop line) : line.count stop = 1 := by
  obtain ⟨body, clean, rfl⟩ := ended
  rw [List.count_append, List.count_eq_zero_of_not_mem clean, List.count_singleton_self]

theorem count_flatten (ended : ∀ l ∈ lines, Terminated stop l) :
    lines.flatten.count stop = lines.length := by
  induction lines with
  | nil => rfl
  | cons l lines ih =>
      rw [List.flatten_cons, List.count_append, (ended l List.mem_cons_self).count,
        ih fun k member => ended k (List.mem_cons_of_mem _ member), List.length_cons, Nat.add_comm]

abbrev InParts (parts lines : List (List Symbol)) : Prop := List.Forall₂ (· <+: ·) parts lines

theorem count_parts (ended : ∀ l ∈ lines, Terminated stop l) (written : InParts parts lines) :
    parts.flatten.count stop ≤ lines.length ∧
      (lines.length ≤ parts.flatten.count stop → parts = lines) := by
  induction written with
  | nil => exact ⟨Nat.le_refl _, fun _ => rfl⟩
  | @cons part l parts lines front _ ih =>
      obtain ⟨most, whole⟩ := ih fun k member => ended k (List.mem_cons_of_mem _ member)
      rw [List.flatten_cons, List.count_append, List.length_cons]
      rcases (ended l List.mem_cons_self).part front with rfl | clean
      · rw [(ended part List.mem_cons_self).count]
        exact ⟨by omega, fun many => by rw [whole (by omega)]⟩
      · rw [List.count_eq_zero_of_not_mem clean]
        exact ⟨by omega, fun many => by omega⟩

/-- A further line of which the text shows nothing was left out, or it is the end of the
last line, whose beginning was written before it. -/
theorem parts_same (ended : ∀ l ∈ lines, Terminated stop l) (rowEnded : Terminated stop row)
    (absent : row ∉ lines) (written : InParts parts (lines ++ [row]))
    (same : parts.flatten = lines.flatten) :
    parts = lines ++ [[]] ∨
      ∃ front part, lines = front ++ [part ++ row] ∧ parts = front ++ [part, row] := by
  induction lines generalizing parts with
  | nil =>
      obtain ⟨part, rest, -, none, rfl⟩ := List.forall₂_cons_right_iff.mp written
      rw [List.forall₂_nil_right_iff.mp none] at same ⊢
      left
      simpa using same
  | cons l lines ih =>
      have ended' : ∀ k ∈ lines, Terminated stop k :=
        fun k member => ended k (List.mem_cons_of_mem _ member)
      obtain ⟨part, parts, front, tail, rfl⟩ := List.forall₂_cons_right_iff.mp written
      simp only [List.flatten_cons] at same
      rcases (ended l List.mem_cons_self).part front with rfl | clean
      · rcases ih ended' (fun member => absent (List.mem_cons_of_mem _ member)) tail
          (List.append_cancel_left same) with rfl | ⟨front, rest, rfl, rfl⟩
        · exact Or.inl rfl
        · exact Or.inr ⟨part :: front, rest, rfl, rfl⟩
      · -- what follows a torn line has every terminator there is
        have all : ∀ k ∈ lines ++ [row], Terminated stop k := by
          intro k member
          rcases List.mem_append.mp member with old | new
          · exact ended' k old
          · exact List.mem_singleton.mp new ▸ rowEnded
        have whole : parts = lines ++ [row] := by
          refine (count_parts all tail).2 ?_
          have total := congrArg (List.count stop) same
          rw [List.count_append, List.count_append, List.count_eq_zero_of_not_mem clean,
            (ended l List.mem_cons_self).count, count_flatten ended'] at total
          rw [List.length_append, List.length_singleton]
          omega
        subst whole
        cases lines with
        | nil => exact Or.inr ⟨[], part, by simpa using same.symm, rfl⟩
        | cons b lines =>
            have torn : (part ++ b) :: (lines ++ [row]) = l :: b :: lines := by
              refine flatten_inj (fun k member => ?_) ended (by simpa using same)
              rcases List.mem_cons.mp member with rfl | rest
              · exact (ended' b List.mem_cons_self).prepend clean
              · exact all k (List.mem_cons_of_mem _ rest)
            have last : row ∈ b :: lines := by
              rw [← (List.cons.inj torn).2]
              simp
            exact absurd (List.mem_cons_of_mem _ last) absent

/-- Lines that are kept, and one more, pass for the old ones only so. -/
theorem rewritten_same {old : List (List Symbol)} (ended : ∀ l ∈ old, Terminated stop l)
    (rowEnded : Terminated stop row) (kept : lines.Sublist old) (absent : row ∉ lines)
    (written : InParts parts (lines ++ [row])) (same : parts.flatten = old.flatten) :
    parts = lines ++ [row] ∨ lines = old ∧ (parts = old ++ [[]] ∨
      ∃ front part, old = front ++ [part ++ row] ∧ parts = front ++ [part, row]) := by
  by_cases all : old.length ≤ lines.length
  · have whole := kept.eq_of_length_le all
    subst whole
    exact Or.inr ⟨rfl, parts_same ended rowEnded absent written same⟩
  · have ended' : ∀ k ∈ lines ++ [row], Terminated stop k := by
      intro k member
      rcases List.mem_append.mp member with old | new
      · exact ended k (kept.subset old)
      · exact List.mem_singleton.mp new ▸ rowEnded
    refine Or.inl ((count_parts ended' written).2 ?_)
    rw [same, count_flatten ended, List.length_append, List.length_singleton]
    omega

end MoeStream.Foundation.Lines
