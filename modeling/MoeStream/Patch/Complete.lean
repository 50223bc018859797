import MoeStream.Patch.Blocks

/-!
# Half a patch

When a run on an unpatched tree succeeds, what it has placed then, and what a
second run does.
-/

set_option autoImplicit false

namespace MoeStream.Patch

open Foundation.FilePatches Foundation.Replace

/-! ## The run on an unpatched tree -/

section Unpatched

variable {t : Tree}

theorem apply_written {c l g v w : Text} (cmake : patchCmake (t .cmake) = .ok (some c))
    (modelLoader : patchModelLoader (t .modelLoader) = .ok (some l))
    (graph : patchGraph (t .graph) = .ok (some g))
    (hostPtr : patchHostPtr (t .vulkan) = .ok (some v))
    (fromHostPtr : patchFromHostPtr v = .ok (some w)) :
    (apply t).failure = none ∧ (apply t).tree .cmake = c ∧ (apply t).tree .modelLoader = l ∧
      (apply t).tree .graph = g ∧ (apply t).tree .vulkan = w := by
  rw [apply, blocks, run_cons_written cmake, run_cons_written modelLoader,
    run_cons_written graph, run_cons_written hostPtr, run_cons_written fromHostPtr]
  exact ⟨rfl, rfl, rfl, rfl, rfl⟩

theorem written_of_finished (fresh : Unpatched t) (finished : (apply t).failure = none) :
    ∃ c l g v w, patchCmake (t .cmake) = .ok (some c) ∧
      patchModelLoader (t .modelLoader) = .ok (some l) ∧ patchGraph (t .graph) = .ok (some g) ∧
      patchHostPtr (t .vulkan) = .ok (some v) ∧ patchFromHostPtr v = .ok (some w) := by
  rw [apply, blocks] at finished
  obtain ⟨c, cmake, finished⟩ := exists_written finished fun settled =>
    fresh.cmake (patchCmake_eq_none.mp settled)
  obtain ⟨l, modelLoader, finished⟩ := exists_written finished fun settled =>
    fresh.modelLoader (patchModelLoader_eq_none.mp settled)
  obtain ⟨g, graph, finished⟩ := exists_written finished fun settled =>
    fresh.graph (patchGraph_eq_none.mp settled)
  obtain ⟨v, hostPtr, finished⟩ := exists_written finished fun settled =>
    fresh.hostPtr (patchHostPtr_eq_none.mp settled)
  -- block 4 has written the file, without the marker of block 5
  have kept : ¬fromHostPtrMarker <:+: v :=
    fun marked => fresh.fromHostPtr ((patchHostPtr_marks hostPtr).2.mp marked)
  obtain ⟨w, fromHostPtr, -⟩ := exists_written finished fun settled =>
    kept (patchFromHostPtr_eq_none.mp settled)
  exact ⟨c, l, g, v, w, cmake, modelLoader, graph, hostPtr, fromHostPtr⟩

theorem asserted_present_iff :
    (∀ r, Asserted r → Present t r) ↔
      Present t .sources ∧ Present t .createTensor ∧ Present t .loadAllData ∧
        Present t .routing ∧ Present t .buildFfn ∧ Present t .loopStart ∧
        Present t .loopEnd ∧ Present t .hostPtr ∧ Present t .fromHostPtr := by
  constructor
  · intro all
    refine ⟨all _ ?_, all _ ?_, all _ ?_, all _ ?_, all _ ?_, all _ ?_, all _ ?_, all _ ?_,
      all _ ?_⟩ <;> exact ⟨by decide, by decide, by decide⟩
  · rintro ⟨sources, create, load, topk, ffn, loop, last, base, alignment⟩ r asserted
    cases r with
    | sources => exact sources
    | loaderInclude => exact absurd rfl asserted.1
    | createTensor => exact create
    | loadAllData => exact load
    | graphInclude => exact absurd rfl asserted.2.1
    | routing => exact topk
    | ids => exact absurd rfl asserted.2.2
    | buildFfn => exact ffn
    | loopStart => exact loop
    | loopEnd => exact last
    | hostPtr => exact base
    | fromHostPtr => exact alignment

/-- A run succeeds exactly when all that is asserted is there, and three calls. -/
theorem finished_iff (fresh : Unpatched t) :
    (apply t).failure = none ↔ (∀ r, Asserted r → Present t r) ∧ Counted t := by
  rw [asserted_present_iff]
  constructor
  · intro finished
    obtain ⟨c, l, g, v, w, cmake, modelLoader, graph, hostPtr, fromHostPtr⟩ :=
      written_of_finished fresh finished
    obtain ⟨-, sources, -⟩ := patchCmake_eq_some.mp cmake
    obtain ⟨create, load⟩ := (patchModelLoader_writes_iff fresh.modelLoader).mp ⟨l, modelLoader⟩
    obtain ⟨topk, calls, ffn, loop, last⟩ := (patchGraph_writes_iff fresh.graph).mp ⟨g, graph⟩
    obtain ⟨-, base, rfl⟩ := patchHostPtr_eq_some.mp hostPtr
    obtain ⟨-, alignment, -⟩ := patchFromHostPtr_eq_some.mp fromHostPtr
    exact ⟨⟨sources, create, load, topk, ffn, loop, last, base,
      oldAlignment_infix_vulkanBased.mp alignment⟩, calls⟩
  · rintro ⟨⟨sources, create, load, topk, ffn, loop, last, base, alignment⟩, calls⟩
    have cmake := patchCmake_eq_some.mpr ⟨fresh.cmake, sources, rfl⟩
    obtain ⟨l, modelLoader⟩ := (patchModelLoader_writes_iff fresh.modelLoader).mpr ⟨create, load⟩
    obtain ⟨g, graph⟩ := (patchGraph_writes_iff fresh.graph).mpr ⟨topk, calls, ffn, loop, last⟩
    have hostPtr := patchHostPtr_eq_some.mpr ⟨fresh.hostPtr, base, rfl⟩
    -- block 5 reads the file that block 4 has written
    have fromHostPtr := patchFromHostPtr_eq_some.mpr
      ⟨fun marked => fresh.fromHostPtr (fromHostPtrMarker_infix_vulkanBased.mp marked),
        oldAlignment_infix_vulkanBased.mpr alignment, rfl⟩
    exact (apply_written cmake modelLoader graph hostPtr fromHostPtr).1

/-- After a run that succeeds all that was there has been replaced. -/
theorem placed_of_finished (fresh : Unpatched t) (finished : (apply t).failure = none)
    (r : Replacement) (present : Present t r) : Placed t (apply t).tree r := by
  obtain ⟨c, l, g, v, w, cmake, modelLoader, graph, hostPtr, fromHostPtr⟩ :=
    written_of_finished fresh finished
  obtain ⟨-, atCmake, atLoader, atGraph, atVulkan⟩ :=
    apply_written cmake modelLoader graph hostPtr fromHostPtr
  obtain ⟨newLoads, newCreates, loaderIncluded⟩ := modelLoader_placed modelLoader
  obtain ⟨topk, ffn, loop, last, graphIncluded, calls⟩ := graph_placed graph
  obtain ⟨-, sources, rfl⟩ := patchCmake_eq_some.mp cmake
  obtain ⟨-, base, rfl⟩ := patchHostPtr_eq_some.mp hostPtr
  obtain ⟨-, alignment, rfl⟩ := patchFromHostPtr_eq_some.mp fromHostPtr
  have vulkan := vulkan_placed base (oldAlignment_infix_vulkanBased.mp alignment)
  cases r <;> simp only [Placed, atCmake, atLoader, atGraph, atVulkan]
  case sources => exact cmake_placed sources
  case loaderInclude => exact loaderIncluded present
  case createTensor => exact newCreates
  case loadAllData => exact newLoads
  case graphInclude => exact graphIncluded present
  case routing => exact topk
  case ids => exact fun r mine => ⟨(calls r mine).1, (calls r mine).2 (present r mine)⟩
  case buildFfn => exact ffn
  case loopStart => exact loop
  case loopEnd => exact last
  case hostPtr => exact vulkan.1
  case fromHostPtr => exact vulkan.2

end Unpatched

/-! ## Second runs -/

theorem blocks_cases {p : Patch Target Text String} (member : p ∈ blocks) :
    p = ⟨.cmake, patchCmake⟩ ∨ p = ⟨.modelLoader, patchModelLoader⟩ ∨
      p = ⟨.graph, patchGraph⟩ ∨ p = ⟨.vulkan, patchHostPtr⟩ ∨
      p = ⟨.vulkan, patchFromHostPtr⟩ := by
  simpa [blocks] using member

theorem blocks_stable : Stable blocks := by
  have self : ∀ p ∈ blocks, ∀ text out, p.patch text = .ok (some out) →
      p.patch out = .ok none := by
    intro p member text out done
    rcases blocks_cases member with rfl | rfl | rfl | rfl | rfl
    · exact patchCmake_eq_none.mpr (patchCmake_marks done)
    · exact patchModelLoader_eq_none.mpr (patchModelLoader_marks done)
    · exact patchGraph_eq_none.mpr (patchGraph_marks done)
    · exact patchHostPtr_eq_none.mpr (patchHostPtr_marks done).1
    · exact patchFromHostPtr_eq_none.mpr (patchFromHostPtr_marks done).1
  refine ⟨self, ?_⟩
  intro p member q other same text out done settled
  by_cases one : p = q
  · rw [one]
    exact self q other text out done
  -- only blocks 4 and 5 share a file
  rcases blocks_cases member with rfl | rfl | rfl | rfl | rfl <;>
    rcases blocks_cases other with rfl | rfl | rfl | rfl | rfl <;>
    first | exact absurd rfl one | cases same
  · exact patchHostPtr_eq_none.mpr
      ((patchFromHostPtr_marks done).2 (patchHostPtr_eq_none.mp settled))
  · exact patchFromHostPtr_eq_none.mpr
      ((patchHostPtr_marks done).2.mpr (patchFromHostPtr_eq_none.mp settled))

theorem blocks_grouped : Grouped blocks := by
  intro pre p post split
  rcases pre with _ | ⟨a, _ | ⟨b, _ | ⟨c, _ | ⟨d, _ | ⟨e, pre⟩⟩⟩⟩⟩ <;>
    simp only [blocks, List.nil_append, List.cons_append, List.cons.injEq] at split
  · exact ⟨[], [], rfl, by simp, by simp⟩
  · obtain ⟨rfl, rfl, -⟩ := split
    exact ⟨[_], [], rfl, by simp, by simp⟩
  · obtain ⟨rfl, rfl, rfl, -⟩ := split
    exact ⟨[_, _], [], rfl, by simp, by simp⟩
  · obtain ⟨rfl, rfl, rfl, rfl, -⟩ := split
    exact ⟨[_, _, _], [], rfl, by simp, by simp⟩
  · obtain ⟨rfl, rfl, rfl, rfl, rfl, -⟩ := split
    exact ⟨[_, _, _], [_], rfl, by simp, by simp⟩
  · simp at split

/-! ## Never halfway -/

/-- A run succeeds only with every replacement made, and another run changes
nothing; after a failure and a new file in place of the one at fault, it ends
as on the repaired tree. -/
structure NeverHalfway (t : Tree) : Prop where
  complete : (apply t).failure = none → ∀ r, TookEffect t (apply t).tree r
  absent : ∀ r, ¬Present t r → (apply t).failure ≠ none
  again : (apply t).failure = none → apply (apply t).tree = ⟨(apply t).tree, 0, none⟩
  repaired : ∀ k e, (apply t).failure = some (k, e) → ∀ f : Text,
    (apply (Function.update (apply t).tree k f)).tree = (apply (Function.update t k f)).tree ∧
      (apply (Function.update (apply t).tree k f)).failure =
        (apply (Function.update t k f)).failure

theorem neverHalfway_iff {t : Tree} (fresh : Unpatched t) :
    NeverHalfway t ↔
      (Present t .loaderInclude ∧ Present t .graphInclude ∧ Present t .ids) ∨
        (∃ r, Asserted r ∧ ¬Present t r) ∨ ¬Counted t := by
  constructor
  · intro never
    by_cases lost : (∃ r, Asserted r ∧ ¬Present t r) ∨ ¬Counted t
    · exact Or.inr lost
    · obtain ⟨whole, counted⟩ := not_or.mp lost
      have finished : (apply t).failure = none := (finished_iff fresh).mpr
        ⟨fun r asserted => by_contra fun missing => whole ⟨r, asserted, missing⟩,
          not_not.mp counted⟩
      have complete := never.complete finished
      exact Or.inl ⟨(complete _).1, (complete _).1, (complete _).1⟩
  · intro guarded
    have all : (apply t).failure = none → ∀ r, Present t r := by
      intro finished
      obtain ⟨asserted, counted⟩ := (finished_iff fresh).mp finished
      rcases guarded with ⟨loader, graph, calls⟩ | ⟨r, mine, missing⟩ | few
      · intro r
        by_cases checked : Asserted r
        · exact asserted r checked
        -- the three that nothing is asserted of by itself
        · rcases not_and_or.mp checked with loaderCase | others
          · rwa [not_not.mp loaderCase]
          rcases not_and_or.mp others with graphCase | idsCase
          · rwa [not_not.mp graphCase]
          · rwa [not_not.mp idsCase]
      · exact absurd (asserted r mine) missing
      · exact absurd counted few
    exact
      { complete := fun finished r =>
          ⟨all finished r, placed_of_finished fresh finished r (all finished r)⟩
        absent := fun r missing finished => missing (all finished r)
        again := blocks_stable.run_again
        repaired := fun _ _ failed f => blocks_stable.run_resume blocks_grouped failed f }

/-! ## Two trees -/

def file (texts : List Text) : Text := texts.flatMap (· ++ chars "\n\n" rfl)

def treeWith (loaderHead : Text) : Tree
  | .cmake => file [oldCmake]
  | .modelLoader => file [loaderHead, oldReshape, oldLoad]
  | .graph => file ([graphInclude, oldTopk, oldFfn, oldLoop] ++ idsRules.map Prod.fst ++ [oldEnd])
  | .vulkan => file [oldBase, oldAlignment]

def wholeTree : Tree := treeWith loaderInclude

def movedTree : Tree := treeWith (chars "#include \"loader/llama-model-loader.h\"" rfl)

theorem wholeTree_texts :
    (¬cmakeMarker <:+: wholeTree .cmake ∧ ¬moestream <:+: wholeTree .modelLoader ∧
      ¬moestream <:+: wholeTree .graph ∧ ¬hostPtrMarker <:+: wholeTree .vulkan ∧
      ¬fromHostPtrMarker <:+: wholeTree .vulkan) ∧
      loaderInclude <:+: wholeTree .modelLoader ∧ graphInclude <:+: wholeTree .graph ∧
      ∀ r ∈ idsRules, r.1 <:+: wholeTree .graph := by
  decide +kernel

theorem movedTree_texts :
    (oldCmake <:+: movedTree .cmake ∧ (∃ v ∈ variants, v.1 <:+: movedTree .modelLoader) ∧
      oldLoad <:+: movedTree .modelLoader ∧ oldTopk <:+: movedTree .graph ∧
      oldFfn <:+: movedTree .graph ∧ oldLoop <:+: movedTree .graph ∧
      oldEnd <:+: movedTree .graph ∧ oldBase <:+: movedTree .vulkan ∧
      oldAlignment <:+: movedTree .vulkan) ∧
      3 ≤ (rewriteAll idsRules (movedTree .graph)).2 ∧
      ¬moestream <:+: movedTree .modelLoader ∧ ¬loaderInclude <:+: movedTree .modelLoader := by
  decide +kernel

theorem wholeTree_unpatched : Unpatched wholeTree := by
  obtain ⟨⟨cmake, modelLoader, graph, hostPtr, fromHostPtr⟩, -⟩ := wholeTree_texts
  exact ⟨cmake, modelLoader, graph, hostPtr, fromHostPtr⟩

theorem movedTree_unpatched : Unpatched movedTree := by
  obtain ⟨cmake, -, graph, hostPtr, fromHostPtr⟩ := wholeTree_unpatched
  obtain ⟨-, -, modelLoader, -⟩ := movedTree_texts
  exact ⟨cmake, modelLoader, graph, hostPtr, fromHostPtr⟩

theorem wholeTree_neverHalfway : NeverHalfway wholeTree :=
  (neverHalfway_iff wholeTree_unpatched).mpr (Or.inl wholeTree_texts.2)

/-- The run succeeds without the include. -/
theorem movedTree_halfway : Unpatched movedTree ∧ ¬NeverHalfway movedTree := by
  refine ⟨movedTree_unpatched, fun never => ?_⟩
  obtain ⟨asserted, counted, -, missing⟩ := movedTree_texts
  have finished := (finished_iff movedTree_unpatched).mpr
    ⟨asserted_present_iff.mpr asserted, counted⟩
  exact missing (never.complete finished .loaderInclude).1

end MoeStream.Patch
