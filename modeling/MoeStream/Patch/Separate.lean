import MoeStream.Patch.Apply

/-!
# The texts do not meet

The edits of a file as stages.  No anchor overlaps what is replaced before it is
looked for or what is put in there, and no text that is put in overlaps an anchor
that is replaced later.
-/

set_option autoImplicit false

namespace MoeStream.Patch

open Foundation.Replace

def createRules : List (Text × Text) := variants.map fun v => (v.1, createFor v.2)

def loaderStages : List (List (Text × Text)) :=
  [[(loaderInclude, loaderIncludes)], createRules, [(oldLoad, newLoad)]]

def graphStages : List (List (Text × Text)) :=
  [[(graphInclude, graphIncludes)], [(oldTopk, newTopk)], idsRules, [(oldFfn, newFfn)],
    [(oldLoop, newLoop)], [(oldEnd, newEnd)]]

def vulkanStages : List (List (Text × Text)) :=
  [[(oldBase, newBase)], [(oldAlignment, newAlignment)]]

theorem stages_independent :
    Independent loaderStages ∧ Independent graphStages ∧ Independent vulkanStages := by
  decide +kernel

/-- The calls are apart from each other, from what they become and from the edits
that follow. -/
theorem calls_apart :
    (∀ q ∈ idsRules, ∀ r ∈ idsRules, q ≠ r → Apart q.1 r.1) ∧
      (∀ q ∈ idsRules, ∀ r ∈ idsRules, Apart q.1 r.2) ∧
      ∀ r ∈ idsRules, ∀ e ∈ (graphStages.drop 3).flatten, Apart r.1 e.1 ∧ Apart r.1 e.2 := by
  decide +kernel

/-- What is put into a file has the marker of its block, and blocks 4 and 5 keep
to theirs. -/
theorem markers_apart :
    (cmakeMarker <:+: newCmake ∧ moestream <:+: newLoad ∧ moestream <:+: newEnd ∧
      hostPtrMarker <:+: newBase ∧ fromHostPtrMarker <:+: newAlignment) ∧
      Apart hostPtrMarker oldAlignment ∧
      Apart fromHostPtrMarker oldBase ∧ Apart fromHostPtrMarker newBase := by
  decide +kernel

/-! ## No anchor is empty -/

theorem loader_ne_nil :
    loaderInclude ≠ [] ∧ (∀ v ∈ variants, v.1 ≠ []) ∧ oldLoad ≠ [] := by
  refine ⟨List.cons_ne_nil _ _, ?_, List.cons_ne_nil _ _⟩
  rintro v member
  rcases List.mem_pair.mp member with rfl | rfl <;> exact List.cons_ne_nil _ _

theorem graph_ne_nil :
    graphInclude ≠ [] ∧ oldTopk ≠ [] ∧ oldFfn ≠ [] ∧ oldLoop ≠ [] ∧ oldEnd ≠ [] :=
  ⟨List.cons_ne_nil _ _, List.cons_ne_nil _ _, List.cons_ne_nil _ _, List.cons_ne_nil _ _,
    List.cons_ne_nil _ _⟩

theorem ids_ne_nil : ∀ r ∈ idsRules, r.1 ≠ [] := by
  intro r member
  obtain ⟨exps, -, rfl⟩ := List.mem_map.mp member
  exact List.cons_ne_nil _ _

theorem vulkan_ne_nil : oldBase ≠ [] ∧ oldAlignment ≠ [] :=
  ⟨List.cons_ne_nil _ _, List.cons_ne_nil _ _⟩

end MoeStream.Patch
