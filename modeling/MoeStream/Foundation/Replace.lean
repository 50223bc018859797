import Mathlib.Data.List.Find
import Mathlib.Data.List.Infix

/-!
# Replacing substrings

The first occurrence of a text, or every match of one of several from the left.
Texts that cannot overlap what is replaced occur as often as before.
-/

set_option autoImplicit false

namespace MoeStream.Foundation.Replace

section Functions

variable {α : Type} [DecidableEq α]

/-- The first occurrence of `old`, if there is one, becomes `new`. -/
def replaceFirst (old new : List α) : List α → List α
  | [] => []
  | c :: rest =>
      if old <+: c :: rest then new ++ (c :: rest).drop old.length
      else c :: replaceFirst old new rest

/-- Matches do not overlap: `skip` symbols of the last one are still to pass. -/
def rewriteFrom (rules : List (List α × List α)) : Nat → List α → List α × Nat
  | _, [] => ([], 0)
  | skip + 1, _ :: rest => rewriteFrom rules skip rest
  | 0, c :: rest =>
      match rules.find? (fun r => r.1 <+: c :: rest) with
      | none => (c :: (rewriteFrom rules 0 rest).1, (rewriteFrom rules 0 rest).2)
      | some r =>
          (r.2 ++ (rewriteFrom rules (r.1.length - 1) rest).1,
            (rewriteFrom rules (r.1.length - 1) rest).2 + 1)

def rewriteAll (rules : List (List α × List α)) (s : List α) : List α × Nat :=
  rewriteFrom rules 0 s

end Functions

/-! ## Texts that do not overlap -/

variable {α : Type}

/-- One of the two continues the other. -/
def Comparable (a b : List α) : Prop := a <+: b ∨ b <+: a

/-- No occurrence of `x` shares a symbol with one of `w`. -/
structure Apart (x w : List α) : Prop where
  ends : ∀ t, t ≠ [] → t <:+ x → ¬Comparable t w
  starts : ∀ t, t ≠ [] → t <:+ w → ¬Comparable x t

section Check

variable [DecidableEq α]

def agree : List α → List α → Bool
  | [], _ => true
  | _, [] => true
  | a :: as, b :: bs => a == b && agree as bs

def clear (test : List α → Bool) : List α → Bool
  | [] => true
  | c :: rest => !test (c :: rest) && clear test rest

def apart (x w : List α) : Bool := clear (agree · w) x && clear (agree x ·) w

theorem agree_iff {a b : List α} : agree a b = true ↔ Comparable a b := by
  induction a generalizing b with
  | nil => simp [agree, Comparable]
  | cons c as ih =>
      cases b with
      | nil => simp [agree, Comparable]
      | cons d bs =>
          simp only [agree, Bool.and_eq_true, beq_iff_eq, ih, Comparable, List.cons_prefix_cons]
          constructor
          · rintro ⟨rfl, left | right⟩
            · exact Or.inl ⟨rfl, left⟩
            · exact Or.inr ⟨rfl, right⟩
          · rintro (⟨rfl, left⟩ | ⟨rfl, right⟩)
            · exact ⟨rfl, Or.inl left⟩
            · exact ⟨rfl, Or.inr right⟩

omit [DecidableEq α] in
theorem clear_iff {test : List α → Bool} {l : List α} :
    clear test l = true ↔ ∀ t, t ≠ [] → t <:+ l → test t = false := by
  induction l with
  | nil =>
      refine ⟨fun _ t nonempty ending => ?_, fun _ => rfl⟩
      exact absurd (List.suffix_nil.mp ending) nonempty
  | cons c rest ih =>
      rw [clear, Bool.and_eq_true, ih, Bool.not_eq_true']
      constructor
      · rintro ⟨whole, later⟩ t nonempty ending
        rcases List.suffix_cons_iff.mp ending with rfl | ending
        · exact whole
        · exact later t nonempty ending
      · intro all
        exact ⟨all _ (List.cons_ne_nil _ _) (List.suffix_refl _),
          fun t nonempty ending => all t nonempty (ending.trans (List.suffix_cons c rest))⟩

theorem apart_iff {x w : List α} : apart x w = true ↔ Apart x w := by
  rw [apart, Bool.and_eq_true, clear_iff, clear_iff]
  constructor
  · rintro ⟨ends, starts⟩
    refine ⟨fun t nonempty ending same => ?_, fun t nonempty ending same => ?_⟩
    · exact Bool.eq_false_iff.mp (ends t nonempty ending) (agree_iff.mpr same)
    · exact Bool.eq_false_iff.mp (starts t nonempty ending) (agree_iff.mpr same)
  · intro separate
    refine ⟨fun t nonempty ending => ?_, fun t nonempty ending => ?_⟩
    · exact Bool.eq_false_iff.mpr fun same =>
        separate.ends t nonempty ending (agree_iff.mp same)
    · exact Bool.eq_false_iff.mpr fun same =>
        separate.starts t nonempty ending (agree_iff.mp same)

instance (x w : List α) : Decidable (Apart x w) := decidable_of_iff _ apart_iff

end Check

theorem comparable_of_common {a b l : List α} (left : a <+: l) (right : b <+: l) :
    Comparable a b := List.prefix_or_prefix_of_prefix left right

theorem Apart.not_start {x w t B : List α} (separate : Apart x w) (nonempty : t ≠ [])
    (ending : t <:+ w) : ¬x <+: t ++ B :=
  fun start => separate.starts t nonempty ending
    (comparable_of_common start (List.prefix_append t B))

theorem Apart.prefix_append_iff {x w A B : List α} (separate : Apart x w) :
    x <+: A ++ (w ++ B) ↔ x <+: A := by
  constructor
  · intro start
    rcases comparable_of_common start (List.prefix_append A (w ++ B)) with inside | ⟨t, rfl⟩
    · exact inside
    · rcases eq_or_ne t [] with rfl | nonempty
      · rw [List.append_nil]
      · have shared : t <+: w ++ B := (List.prefix_append_right_inj A).mp start
        exact absurd (comparable_of_common shared (List.prefix_append w B))
          (separate.ends t nonempty (List.suffix_append A t))
  · exact fun inside => inside.trans (List.prefix_append A _)

theorem Apart.infix_append_of_suffix {x w v B : List α} (separate : Apart x w)
    (ending : v <:+ w) : x <:+: v ++ B ↔ x <:+: B := by
  induction v with
  | nil => rw [List.nil_append]
  | cons c v ih =>
      have elsewhere := separate.not_start (B := B) (List.cons_ne_nil c v) ending
      rw [List.cons_append] at elsewhere ⊢
      rw [List.infix_cons_iff, ih ((List.suffix_cons c v).trans ending)]
      exact or_iff_right elsewhere

theorem Apart.infix_append_iff {x w A B : List α} (separate : Apart x w) :
    x <:+: A ++ w ++ B ↔ x <:+: A ∨ x <:+: B := by
  rw [List.append_assoc]
  induction A with
  | nil =>
      rw [List.nil_append, separate.infix_append_of_suffix (List.suffix_refl w), List.infix_nil]
      constructor
      · exact Or.inr
      · rintro (rfl | inside)
        · exact List.nil_infix
        · exact inside
  | cons c A ih =>
      have head : x <+: c :: (A ++ (w ++ B)) ↔ x <+: c :: A :=
        separate.prefix_append_iff (A := c :: A)
      rw [List.cons_append, List.infix_cons_iff, List.infix_cons_iff, head, ih, or_assoc]

/-! ## Splices -/

/-- Some occurrences of the left sides have become the right sides, one after
another. -/
inductive Splice (rules : List (List α × List α)) : List α → List α → Prop
  | refl (s : List α) : Splice rules s s
  | step {r : List α × List α} {A B s : List α} (member : r ∈ rules)
      (later : Splice rules (A ++ r.2 ++ B) s) : Splice rules (A ++ r.1 ++ B) s

namespace Splice

variable {rules rules' : List (List α × List α)} {s s' s'' x : List α}

theorem trans (first : Splice rules s s') (second : Splice rules s' s'') :
    Splice rules s s'' := by
  induction first with
  | refl => exact second
  | step member _ ih => exact .step member (ih second)

theorem mono (splice : Splice rules s s') (subset : rules ⊆ rules') : Splice rules' s s' := by
  induction splice with
  | refl => exact .refl _
  | step member _ ih => exact .step (subset member) ih

theorem append_left (A : List α) (splice : Splice rules s s') :
    Splice rules (A ++ s) (A ++ s') := by
  induction splice with
  | refl => exact .refl _
  | step member _ ih =>
      rw [← List.append_assoc, ← List.append_assoc] at ih ⊢
      exact .step member ih

theorem infix_iff (splice : Splice rules s s')
    (separate : ∀ r ∈ rules, Apart x r.1 ∧ Apart x r.2) : x <:+: s' ↔ x <:+: s := by
  induction splice with
  | refl => exact Iff.rfl
  | step member _ ih =>
      rw [ih, (separate _ member).1.infix_append_iff, (separate _ member).2.infix_append_iff]

theorem infix_kept (splice : Splice rules s s') (separate : ∀ r ∈ rules, Apart x r.1)
    (before : x <:+: s) : x <:+: s' := by
  induction splice with
  | refl => exact before
  | step member _ ih =>
      rcases (separate _ member).infix_append_iff.mp before with left | right
      · exact ih (left.trans (List.infix_append_left.trans List.infix_append_left))
      · exact ih (right.trans List.infix_append_right)

end Splice

/-! ## Stages -/

section Stages

variable {stages rest : List (List (List α × List α))} {stage : List (List α × List α)}
  {s s' : List α}

inductive Staged : List (List (List α × List α)) → List α → List α → Prop
  | nil (s : List α) : Staged [] s s
  | cons {stage : List (List α × List α)} {rest : List (List (List α × List α))}
      {s s' s'' : List α} (first : Splice stage s s') (later : Staged rest s' s'') :
      Staged (stage :: rest) s s''

/-- What a stage looks for is apart from all the stages before it edit, and what
they put in is apart from what it looks for. -/
def Independent (stages : List (List (List α × List α))) : Prop :=
  stages.Pairwise fun before after =>
    ∀ e ∈ before, ∀ r ∈ after, (Apart r.1 e.1 ∧ Apart r.1 e.2) ∧ Apart e.2 r.1

instance [DecidableEq α] : Decidable (Independent stages) :=
  inferInstanceAs (Decidable (List.Pairwise _ _))

theorem Staged.one (splice : Splice stage s s') : Staged [stage] s s' := .cons splice (.nil s')

theorem Staged.concat {s'' : List α} (staged : Staged stages s s') (last : Splice stage s' s'') :
    Staged (stages ++ [stage]) s s'' := by
  induction staged with
  | nil s => exact .one last
  | cons first _ ih => exact .cons first (ih last)

theorem Staged.splice (staged : Staged stages s s') : Splice stages.flatten s s' := by
  induction staged with
  | nil s => exact .refl s
  | cons first _ ih =>
      exact (first.mono (List.subset_append_left _ _)).trans
        (ih.mono (List.subset_append_right _ _))

theorem Independent.apart (stages : List (List (List α × List α)))
    (independent : Independent (stages ++ stage :: rest)) :
    (∀ r ∈ stage, ∀ e ∈ stages.flatten, Apart r.1 e.1 ∧ Apart r.1 e.2) ∧
      ∀ e ∈ stage, ∀ r ∈ rest.flatten, Apart e.2 r.1 := by
  obtain ⟨-, later, across⟩ := List.pairwise_append.mp independent
  constructor
  · intro r mine e member
    obtain ⟨before, earlier, inside⟩ := List.mem_flatten.mp member
    exact (across before earlier stage List.mem_cons_self e inside r mine).1
  · intro e mine r member
    obtain ⟨after, listed, inside⟩ := List.mem_flatten.mp member
    exact ((List.pairwise_cons.mp later).1 after listed e mine r inside).2

/-- What a stage looks for is there as before the stages that precede it. -/
theorem Staged.infix_iff (staged : Staged stages s s')
    (independent : Independent (stages ++ stage :: rest)) {old new : List α}
    (mine : (old, new) ∈ stage) : old <:+: s' ↔ old <:+: s :=
  staged.splice.infix_iff ((independent.apart stages).1 _ mine)

theorem Staged.infix_kept (stages : List (List (List α × List α))) (staged : Staged rest s s')
    (independent : Independent (stages ++ stage :: rest)) {old new : List α}
    (mine : (old, new) ∈ stage) (before : new <:+: s) : new <:+: s' :=
  staged.splice.infix_kept ((independent.apart stages).2 _ mine) before

end Stages

/-! ## The first occurrence -/

section First

variable [DecidableEq α] {old new s : List α}

theorem replaceFirst_split (nonempty : old ≠ []) (occurs : old <:+: s) :
    ∃ A B, s = A ++ old ++ B ∧ replaceFirst old new s = A ++ new ++ B := by
  induction s with
  | nil => exact absurd (List.infix_nil.mp occurs) nonempty
  | cons c rest ih =>
      rw [replaceFirst]
      by_cases here : old <+: c :: rest
      · obtain ⟨B, whole⟩ := here
        refine ⟨[], B, whole.symm, ?_⟩
        rw [if_pos ⟨B, whole⟩, ← whole, List.drop_left]
        rfl
      · obtain ⟨A, B, split, result⟩ := ih ((List.infix_cons_iff.mp occurs).resolve_left here)
        refine ⟨c :: A, B, ?_, ?_⟩
        · rw [split]
          rfl
        · rw [if_neg here, result]
          rfl

theorem replaceFirst_splice (old new s : List α) :
    Splice [(old, new)] s (replaceFirst old new s) := by
  induction s with
  | nil => exact .refl []
  | cons c rest ih =>
      rw [replaceFirst]
      by_cases here : old <+: c :: rest
      · obtain ⟨B, whole⟩ := here
        rw [if_pos ⟨B, whole⟩, ← whole, List.drop_left]
        exact @Splice.step _ _ (old, new) [] B _ List.mem_cons_self (.refl _)
      · rw [if_neg here]
        exact ih.append_left [c]

theorem infix_replaceFirst (nonempty : old ≠ []) (occurs : old <:+: s) :
    new <:+: replaceFirst old new s := by
  obtain ⟨A, B, -, result⟩ := @replaceFirst_split _ _ _ new _ nonempty occurs
  rw [result]
  exact List.infix_append A new B

end First

/-! ## Every match -/

section All

variable [DecidableEq α] {rules : List (List α × List α)}

@[simp] theorem rewriteFrom_eq (skip : Nat) (s : List α) :
    rewriteFrom rules skip s = rewriteAll rules (s.drop skip) := by
  induction s generalizing skip with
  | nil => cases skip <;> rfl
  | cons c rest ih =>
      cases skip with
      | zero => rfl
      | succ skip => exact ih skip

theorem rewriteAll_cons_of_none {c : α} {rest : List α}
    (nowhere : ∀ r ∈ rules, ¬r.1 <+: c :: rest) :
    rewriteAll rules (c :: rest) =
      (c :: (rewriteAll rules rest).1, (rewriteAll rules rest).2) := by
  have search : rules.find? (fun r => r.1 <+: c :: rest) = none :=
    List.find?_eq_none.mpr fun r member => by simpa using nowhere r member
  rw [rewriteAll, rewriteFrom, search]
  rfl

theorem rewriteAll_append_of_match {r : List α × List α} {B : List α} (nonempty : r.1 ≠ [])
    (search : rules.find? (fun r' => r'.1 <+: r.1 ++ B) = some r) :
    rewriteAll rules (r.1 ++ B) =
      (r.2 ++ (rewriteAll rules B).1, (rewriteAll rules B).2 + 1) := by
  obtain ⟨c, old, split⟩ := List.exists_cons_of_ne_nil nonempty
  rw [split] at search
  rw [rewriteAll, split, List.cons_append, rewriteFrom, ← List.cons_append, search]
  simp only [rewriteFrom_eq, split, List.length_cons, Nat.add_sub_cancel, List.drop_left]

theorem rewriteAll_cases (full : ∀ r ∈ rules, r.1 ≠ []) (s : List α) :
    ((∀ r ∈ rules, ¬r.1 <:+: s) ∧ rewriteAll rules s = (s, 0)) ∨
      ∃ r ∈ rules, ∃ A B, s = A ++ r.1 ++ B ∧ (∀ q ∈ rules, ¬q.1 <:+: A) ∧
        rewriteAll rules s = (A ++ r.2 ++ (rewriteAll rules B).1, (rewriteAll rules B).2 + 1) := by
  have never : ∀ q ∈ rules, ¬q.1 <:+: [] :=
    fun q member occurs => full q member (List.infix_nil.mp occurs)
  induction s with
  | nil => exact Or.inl ⟨never, rfl⟩
  | cons c rest ih =>
      cases search : rules.find? (fun r => r.1 <+: c :: rest) with
      | some r =>
          have member := List.mem_of_find?_eq_some search
          obtain ⟨B, whole⟩ : r.1 <+: c :: rest := by
            simpa using List.find?_some search
          rw [← whole] at search ⊢
          exact Or.inr ⟨r, member, [], B, rfl, never,
            rewriteAll_append_of_match (full r member) search⟩
      | none =>
          have here : ∀ r ∈ rules, ¬r.1 <+: c :: rest := by
            simpa using List.find?_eq_none.mp search
          rcases ih with ⟨absent, same⟩ | ⟨r, member, A, B, split, absent, result⟩
          · refine Or.inl ⟨fun q member => ?_, ?_⟩
            · rw [List.infix_cons_iff, not_or]
              exact ⟨here q member, absent q member⟩
            · rw [rewriteAll_cons_of_none here, same]
          · refine Or.inr ⟨r, member, c :: A, B, by rw [split]; rfl, fun q member => ?_, ?_⟩
            · rw [List.infix_cons_iff, not_or]
              refine ⟨fun start => here q member (start.trans ?_), absent q member⟩
              rw [split, List.append_assoc]
              exact List.prefix_append (c :: A) _
            · rw [rewriteAll_cons_of_none here, result]
              rfl

theorem rewriteAll_induction (full : ∀ r ∈ rules, r.1 ≠ []) {motive : List α → Prop}
    (nothing : ∀ s, (∀ r ∈ rules, ¬r.1 <:+: s) → rewriteAll rules s = (s, 0) → motive s)
    (first : ∀ r ∈ rules, ∀ A B, (∀ q ∈ rules, ¬q.1 <:+: A) →
      rewriteAll rules (A ++ r.1 ++ B) =
        (A ++ r.2 ++ (rewriteAll rules B).1, (rewriteAll rules B).2 + 1) →
      motive B → motive (A ++ r.1 ++ B)) (s : List α) : motive s := by
  induction size : s.length using Nat.strong_induction_on generalizing s with
  | _ size ih =>
      rcases rewriteAll_cases full s with ⟨absent, same⟩ | ⟨r, member, A, B, split, absent, result⟩
      · exact nothing s absent same
      · subst split
        refine first r member A B absent result (ih B.length ?_ B rfl)
        have positive := List.length_pos_iff.mpr (full r member)
        simp only [List.length_append] at size
        omega

theorem rewriteAll_splice (full : ∀ r ∈ rules, r.1 ≠ []) (s : List α) :
    Splice rules s (rewriteAll rules s).1 := by
  induction s using rewriteAll_induction full with
  | nothing s _ same =>
      rw [same]
      exact .refl s
  | first r member A B _ result ih =>
      rw [result]
      exact .step member (ih.append_left (A ++ r.2))

theorem not_infix_rewriteAll (full : ∀ r ∈ rules, r.1 ≠ [])
    (separate : ∀ q ∈ rules, ∀ r ∈ rules, Apart q.1 r.2) (s : List α) :
    ∀ q ∈ rules, ¬q.1 <:+: (rewriteAll rules s).1 := by
  induction s using rewriteAll_induction full with
  | nothing s absent same =>
      rw [same]
      exact absent
  | first r member A B absent result ih =>
      intro q mine
      rw [result, (separate q mine r member).infix_append_iff, not_or]
      exact ⟨absent q mine, ih q mine⟩

theorem infix_rewriteAll (full : ∀ r ∈ rules, r.1 ≠ [])
    (distinct : ∀ q ∈ rules, ∀ r ∈ rules, q ≠ r → Apart q.1 r.1) (s : List α) :
    ∀ q ∈ rules, q.1 <:+: s → q.2 <:+: (rewriteAll rules s).1 := by
  induction s using rewriteAll_induction full with
  | nothing s absent _ =>
      intro q mine occurs
      exact absurd occurs (absent q mine)
  | first r member A B absent result ih =>
      intro q mine occurs
      rw [result]
      rcases eq_or_ne q r with rfl | other
      · exact List.infix_append A _ _
      · rcases (distinct q mine r member other).infix_append_iff.mp occurs with left | right
        · exact absurd left (absent q mine)
        · exact (ih q mine right).trans List.infix_append_right

/-! ## The number of matches -/

theorem rewriteAll_count_of_suffix {w v B : List α} (separate : ∀ r ∈ rules, Apart r.1 w)
    (ending : v <:+ w) : (rewriteAll rules (v ++ B)).2 = (rewriteAll rules B).2 := by
  induction v with
  | nil => rfl
  | cons c v ih =>
      have nowhere : ∀ r ∈ rules, ¬r.1 <+: c :: (v ++ B) := fun r member =>
        (separate r member).not_start (List.cons_ne_nil c v) ending
      rw [List.cons_append, rewriteAll_cons_of_none nowhere]
      exact ih ((List.suffix_cons c v).trans ending)

/-- A text apart from the left sides separates the matches around it. -/
theorem rewriteAll_count_append (full : ∀ r ∈ rules, r.1 ≠ []) {w : List α}
    (separate : ∀ r ∈ rules, Apart r.1 w) (A B : List α) :
    (rewriteAll rules (A ++ w ++ B)).2 = (rewriteAll rules A).2 + (rewriteAll rules B).2 := by
  induction size : A.length using Nat.strong_induction_on generalizing A with
  | _ n ih =>
      cases A with
      | nil =>
          rw [List.nil_append, rewriteAll_count_of_suffix separate (List.suffix_refl w)]
          exact (Nat.zero_add _).symm
      | cons c A =>
          -- the same rules match at the head, whatever follows `A`
          have heads : ∀ r ∈ rules, r.1 <+: c :: (A ++ (w ++ B)) ↔ r.1 <+: c :: A :=
            fun r member => (separate r member).prefix_append_iff (A := c :: A)
          have same : rules.find? (fun r => r.1 <+: c :: (A ++ (w ++ B))) =
              rules.find? (fun r => r.1 <+: c :: A) :=
            List.find?_congr fun r member => decide_eq_decide.mpr (heads r member)
          cases search : rules.find? (fun r => r.1 <+: c :: A) with
          | none =>
              have nowhere : ∀ r ∈ rules, ¬r.1 <+: c :: A := by
                simpa using List.find?_eq_none.mp search
              have later := ih A.length (by rw [← size]; exact Nat.lt_succ_self _) A rfl
              rw [List.append_assoc] at later
              rw [List.append_assoc, List.cons_append, rewriteAll_cons_of_none nowhere,
                rewriteAll_cons_of_none fun r member => (heads r member).not.mpr (nowhere r member)]
              exact later
          | some r =>
              have nonempty := full r (List.mem_of_find?_eq_some search)
              obtain ⟨rest, whole⟩ : r.1 <+: c :: A := by
                simpa using List.find?_some search
              have shorter : rest.length < n := by
                rw [← size, ← whole, List.length_append]
                exact Nat.lt_add_of_pos_left (List.length_pos_iff.mpr nonempty)
              have later := ih rest.length shorter rest rfl
              rw [search, ← List.cons_append, ← whole, List.append_assoc] at same
              rw [← whole] at search ⊢
              rw [List.append_assoc, List.append_assoc,
                rewriteAll_append_of_match nonempty search,
                rewriteAll_append_of_match nonempty same, ← List.append_assoc, later]
              omega

theorem rewriteAll_count_splice (full : ∀ r ∈ rules, r.1 ≠ [])
    {edits : List (List α × List α)} {s s' : List α} (splice : Splice edits s s')
    (separate : ∀ r ∈ rules, ∀ e ∈ edits, Apart r.1 e.1 ∧ Apart r.1 e.2) :
    (rewriteAll rules s').2 = (rewriteAll rules s).2 := by
  induction splice with
  | refl => rfl
  | step member _ ih =>
      rw [ih, rewriteAll_count_append full fun r mine => (separate r mine _ member).1,
        rewriteAll_count_append full fun r mine => (separate r mine _ member).2]

end All

end MoeStream.Foundation.Replace
