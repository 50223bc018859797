import Mathlib.Logic.Function.Basic

/-!
# Patching files one after another

A run stops at the first patch that fails and keeps what was written before.
Where a patched file is recognised, a second run writes nothing, and a run after
the file at fault was replaced goes as the first would have gone.
-/

set_option autoImplicit false

namespace MoeStream.Foundation.FilePatches

structure Patch (K T E : Type) where
  file : K
  patch : T → Except E (Option T)

/-- The files after a run, the number written, and the failure that ended it. -/
structure Outcome (K T E : Type) where
  tree : K → T
  applied : Nat
  failure : Option (K × E)

variable {K T E : Type} [DecidableEq K]

def run : List (Patch K T E) → (K → T) → Outcome K T E
  | [], t => ⟨t, 0, none⟩
  | p :: rest, t =>
      match p.patch (t p.file) with
      | .error e => ⟨t, 0, some (p.file, e)⟩
      | .ok none => run rest t
      | .ok (some text) =>
          { run rest (Function.update t p.file text) with
            applied := (run rest (Function.update t p.file text)).applied + 1 }

def Settled (p : Patch K T E) (t : K → T) : Prop := p.patch (t p.file) = .ok none

/-- A file that a patch has written is recognised by it, also after the others
have written. -/
structure Stable (ps : List (Patch K T E)) : Prop where
  self : ∀ p ∈ ps, ∀ text out, p.patch text = .ok (some out) → p.patch out = .ok none
  kept : ∀ p ∈ ps, ∀ q ∈ ps, q.file = p.file → ∀ text out, q.patch text = .ok (some out) →
    p.patch text = .ok none → p.patch out = .ok none

def Grouped (ps : List (Patch K T E)) : Prop :=
  ∀ pre p post, ps = pre ++ p :: post → ∃ others same, pre = others ++ same ∧
    (∀ q ∈ others, q.file ≠ p.file) ∧ ∀ q ∈ same, q.file = p.file

section Steps

variable {p : Patch K T E} {ps rest : List (Patch K T E)} {t : K → T}

theorem run_cons_error {e : E} (failed : p.patch (t p.file) = .error e) :
    run (p :: rest) t = ⟨t, 0, some (p.file, e)⟩ := by
  rw [run, failed]

theorem run_cons_settled (settled : Settled p t) : run (p :: rest) t = run rest t := by
  rw [run, settled]

theorem run_cons_written {text : T} (written : p.patch (t p.file) = .ok (some text)) :
    run (p :: rest) t =
      { run rest (Function.update t p.file text) with
        applied := (run rest (Function.update t p.file text)).applied + 1 } := by
  rw [run, written]

theorem run_of_settled (settled : ∀ p ∈ ps, Settled p t) : run ps t = ⟨t, 0, none⟩ := by
  induction ps with
  | nil => rfl
  | cons p rest ih =>
      rw [run_cons_settled (settled p List.mem_cons_self)]
      exact ih fun q member => settled q (List.mem_cons_of_mem _ member)

theorem exists_written (finished : (run (p :: rest) t).failure = none)
    (unsettled : ¬Settled p t) :
    ∃ text, p.patch (t p.file) = .ok (some text) ∧
      (run rest (Function.update t p.file text)).failure = none := by
  cases found : p.patch (t p.file) with
  | error e =>
      rw [run_cons_error found] at finished
      cases finished
  | ok written =>
      cases written with
      | none => exact absurd found unsettled
      | some text =>
          rw [run_cons_written found] at finished
          exact ⟨text, rfl, finished⟩

/-- Unless it fails, a run is continued by the patches that follow. -/
theorem run_append (qs : List (Patch K T E)) :
    run (ps ++ qs) t =
      (run ps t).failure.elim
        ⟨(run qs (run ps t).tree).tree, (run ps t).applied + (run qs (run ps t).tree).applied,
          (run qs (run ps t).tree).failure⟩
        fun _ => run ps t := by
  induction ps, t using run.induct with
  | case1 t => simp [run]
  | case2 p rest t e found =>
      rw [List.cons_append, run_cons_error found, run_cons_error found]
      rfl
  | case3 p rest t found ih =>
      rw [List.cons_append, run_cons_settled found, run_cons_settled found]
      exact ih
  | case4 p rest t text found ih =>
      rw [List.cons_append, run_cons_written found, run_cons_written found, ih]
      cases (run rest (Function.update t p.file text)).failure with
      | none => simp [Nat.add_right_comm]
      | some failure => rfl

theorem run_append_of_finished {qs : List (Patch K T E)} (finished : (run ps t).failure = none) :
    (run (ps ++ qs) t).tree = (run qs (run ps t).tree).tree ∧
      (run (ps ++ qs) t).failure = (run qs (run ps t).tree).failure := by
  rw [run_append, finished]
  exact ⟨rfl, rfl⟩

theorem finished_of_append {qs : List (Patch K T E)}
    (finished : (run (ps ++ qs) t).failure = none) : (run ps t).failure = none := by
  rw [run_append] at finished
  cases stopped : (run ps t).failure with
  | none => rfl
  | some failure =>
      rw [stopped, Option.elim_some, stopped] at finished
      cases finished

theorem exists_failed {k : K} {e : E} (failed : (run ps t).failure = some (k, e)) :
    ∃ pre p post, ps = pre ++ p :: post ∧ p.file = k ∧ (run pre t).failure = none ∧
      (run ps t).tree = (run pre t).tree := by
  induction ps, t using run.induct with
  | case1 t => cases failed
  | case2 p rest t e' found =>
      rw [run_cons_error found] at failed ⊢
      cases failed
      exact ⟨[], p, rest, rfl, rfl, rfl, rfl⟩
  | case3 p rest t found ih =>
      rw [run_cons_settled found] at failed ⊢
      obtain ⟨pre, q, post, split, file, finished, same⟩ := ih failed
      refine ⟨p :: pre, q, post, by rw [split]; rfl, file, ?_⟩
      rw [run_cons_settled found]
      exact ⟨finished, same⟩
  | case4 p rest t text found ih =>
      rw [run_cons_written found] at failed ⊢
      obtain ⟨pre, q, post, split, file, finished, same⟩ := ih failed
      refine ⟨p :: pre, q, post, by rw [split]; rfl, file, ?_⟩
      rw [run_cons_written found]
      exact ⟨finished, same⟩

end Steps

/-! ## Files that no patch names -/

section Elsewhere

variable {ps : List (Patch K T E)} {t : K → T} {k : K}

theorem run_frame (elsewhere : ∀ p ∈ ps, p.file ≠ k) : (run ps t).tree k = t k := by
  induction ps, t using run.induct with
  | case1 t => rfl
  | case2 p rest t e found => rw [run_cons_error found]
  | case3 p rest t found ih =>
      rw [run_cons_settled found]
      exact ih fun q member => elsewhere q (List.mem_cons_of_mem _ member)
  | case4 p rest t text found ih =>
      rw [run_cons_written found]
      refine (ih fun q member => elsewhere q (List.mem_cons_of_mem _ member)).trans ?_
      exact Function.update_of_ne (elsewhere p List.mem_cons_self).symm _ _

theorem run_update (f : T) (elsewhere : ∀ p ∈ ps, p.file ≠ k) :
    (run ps (Function.update t k f)).tree = Function.update (run ps t).tree k f ∧
      (run ps (Function.update t k f)).failure = (run ps t).failure := by
  induction ps, t using run.induct with
  | case1 t => exact ⟨rfl, rfl⟩
  | case2 p rest t e found =>
      have mine := elsewhere p List.mem_cons_self
      rw [run_cons_error found,
        run_cons_error (by rw [Function.update_of_ne mine]; exact found)]
      exact ⟨rfl, rfl⟩
  | case3 p rest t found ih =>
      have mine := elsewhere p List.mem_cons_self
      rw [run_cons_settled found,
        run_cons_settled (by rw [Settled, Function.update_of_ne mine]; exact found)]
      exact ih fun q member => elsewhere q (List.mem_cons_of_mem _ member)
  | case4 p rest t text found ih =>
      have mine := elsewhere p List.mem_cons_self
      rw [run_cons_written found,
        run_cons_written (by rw [Function.update_of_ne mine]; exact found),
        Function.update_comm mine.symm]
      exact ih fun q member => elsewhere q (List.mem_cons_of_mem _ member)

end Elsewhere

/-! ## Second runs -/

section Again

variable {all ps : List (Patch K T E)} {t : K → T} (stable : Stable all)
include stable

theorem Stable.settled_run (subset : ps ⊆ all) {p : Patch K T E} (member : p ∈ all)
    (settled : Settled p t) : Settled p (run ps t).tree := by
  induction ps, t using run.induct with
  | case1 t => exact settled
  | case2 q rest t e found =>
      rw [run_cons_error found]
      exact settled
  | case3 q rest t found ih =>
      rw [run_cons_settled found]
      exact ih (List.Subset.trans (List.subset_cons_self q rest) subset) settled
  | case4 q rest t text found ih =>
      rw [run_cons_written found]
      refine ih (List.Subset.trans (List.subset_cons_self q rest) subset) ?_
      by_cases same : q.file = p.file
      · rw [Settled, same, Function.update_self]
        refine stable.kept p member q (subset List.mem_cons_self) same _ text found ?_
        rw [same]
        exact settled
      · rw [Settled, Function.update_of_ne (Ne.symm same)]
        exact settled

/-- After a run that does not fail every patch finds its file patched. -/
theorem Stable.settled_of_run (subset : ps ⊆ all) (finished : (run ps t).failure = none) :
    ∀ p ∈ ps, Settled p (run ps t).tree := by
  induction ps, t using run.induct with
  | case1 t => exact fun p member => absurd member List.not_mem_nil
  | case2 q rest t e found =>
      rw [run_cons_error found] at finished
      cases finished
  | case3 q rest t found ih =>
      have others : rest ⊆ all := List.Subset.trans (List.subset_cons_self q rest) subset
      rw [run_cons_settled found] at finished ⊢
      intro p member
      rcases List.mem_cons.mp member with rfl | member
      · exact stable.settled_run others (subset List.mem_cons_self) found
      · exact ih others finished p member
  | case4 q rest t text found ih =>
      have others : rest ⊆ all := List.Subset.trans (List.subset_cons_self q rest) subset
      have mine : q ∈ all := subset List.mem_cons_self
      rw [run_cons_written found] at finished ⊢
      intro p member
      rcases List.mem_cons.mp member with rfl | member
      · refine stable.settled_run others mine ?_
        rw [Settled, Function.update_self]
        exact stable.self p mine _ text found
      · exact ih others finished p member

theorem Stable.run_again (finished : (run all t).failure = none) :
    run all (run all t).tree = ⟨(run all t).tree, 0, none⟩ :=
  run_of_settled (stable.settled_of_run (List.Subset.refl all) finished)

/-- With the file at fault replaced, a second run ends as a first one on the
replaced file would have. -/
theorem Stable.run_resume (grouped : Grouped all) {k : K} {e : E}
    (failed : (run all t).failure = some (k, e)) (f : T) :
    (run all (Function.update (run all t).tree k f)).tree =
        (run all (Function.update t k f)).tree ∧
      (run all (Function.update (run all t).tree k f)).failure =
        (run all (Function.update t k f)).failure := by
  obtain ⟨pre, p, post, split, rfl, finished, stopped⟩ := exists_failed failed
  obtain ⟨others, same, parts, elsewhere, here⟩ := grouped pre p post split
  have whole : all = others ++ (same ++ p :: post) := by
    rw [split, parts, List.append_assoc]
  have subset : others ⊆ all := by
    rw [whole]
    exact List.subset_append_left _ _
  rw [parts] at finished stopped
  have before := finished_of_append finished
  -- past the other files the two runs are one run
  have replaced : Function.update (run all t).tree p.file f =
      Function.update (run others t).tree p.file f := by
    funext k
    by_cases mine : k = p.file
    · rw [mine, Function.update_self, Function.update_self]
    · rw [Function.update_of_ne mine, Function.update_of_ne mine, stopped,
        (run_append_of_finished before).1]
      exact run_frame fun q member => (here q member).trans_ne (Ne.symm mine)
  have settled : ∀ q ∈ others, Settled q (Function.update (run others t).tree p.file f) := by
    intro q member
    rw [Settled, Function.update_of_ne (elsewhere q member)]
    exact stable.settled_of_run subset before q member
  have again : run others (Function.update (run others t).tree p.file f) =
      ⟨Function.update (run others t).tree p.file f, 0, none⟩ := run_of_settled settled
  obtain ⟨first, clean⟩ := run_update (t := t) f elsewhere
  rw [before] at clean
  have finishes : (run others (Function.update (run others t).tree p.file f)).failure = none := by
    rw [again]
  have left := @run_append_of_finished _ _ _ _ others _ (same ++ p :: post) finishes
  have right := @run_append_of_finished _ _ _ _ others _ (same ++ p :: post) clean
  rw [again, ← whole] at left
  rw [first, ← whole] at right
  rw [replaced]
  exact ⟨left.1.trans right.1.symm, left.2.trans right.2.symm⟩

end Again

end MoeStream.Foundation.FilePatches
