import MoeStream.Patch.Separate

/-!
# What each block does

When a block of the patcher writes its file, from what the unpatched file has,
and what the written file then has.
-/

set_option autoImplicit false

namespace MoeStream.Patch

open Foundation.Replace

variable {s out : Text}

theorem ok_bind {α β : Type} {m : Except String α} {f : α → Except String β} {b : β} :
    (m >>= f) = .ok b ↔ ∃ a, m = .ok a ∧ f a = .ok b := by
  cases m <;> simp [bind, Except.bind]

theorem replaceAnchor_eq_ok {old new s' : Text} {message : String} :
    replaceAnchor old new message s = .ok s' ↔ old <:+: s ∧ replaceFirst old new s = s' := by
  by_cases present : old <:+: s <;> simp [replaceAnchor, present]

theorem replaceIds_eq_ok {s' : Text} :
    replaceIds s = .ok s' ↔
      3 ≤ (rewriteAll idsRules s).2 ∧ (rewriteAll idsRules s).1 = s' := by
  by_cases enough : 3 ≤ (rewriteAll idsRules s).2 <;> simp [replaceIds, enough]

theorem replaceCreate_eq_ok {s' : Text} :
    replaceCreate s = .ok s' ↔
      ∃ v, variants.find? (fun v => v.1 <:+: s) = some v ∧
        replaceFirst v.1 (createFor v.2) s = s' := by
  rw [replaceCreate]
  cases variants.find? (fun v => v.1 <:+: s) <;> simp

theorem block_eq_none {marker : Text} {body : Text → Except String Text} :
    block marker body s = .ok none ↔ marker <:+: s := by
  by_cases marked : marker <:+: s
  · simp [block, marked]
  · cases result : body s <;> simp [block, marked, result, Except.map]

theorem block_eq_some {marker : Text} {body : Text → Except String Text} :
    block marker body s = .ok (some out) ↔ ¬marker <:+: s ∧ body s = .ok out := by
  by_cases marked : marker <:+: s
  · simp [block, marked]
  · cases result : body s <;> simp [block, marked, result, Except.map]

/-! ## Files with a marker -/

theorem patchCmake_eq_none : patchCmake s = .ok none ↔ cmakeMarker <:+: s := block_eq_none

theorem patchModelLoader_eq_none : patchModelLoader s = .ok none ↔ moestream <:+: s :=
  block_eq_none

theorem patchGraph_eq_none : patchGraph s = .ok none ↔ moestream <:+: s := block_eq_none

theorem patchHostPtr_eq_none : patchHostPtr s = .ok none ↔ hostPtrMarker <:+: s :=
  block_eq_none

theorem patchFromHostPtr_eq_none :
    patchFromHostPtr s = .ok none ↔ fromHostPtrMarker <:+: s := block_eq_none

/-! ## `src/CMakeLists.txt` -/

theorem patchCmake_eq_some :
    patchCmake s = .ok (some out) ↔
      ¬cmakeMarker <:+: s ∧ oldCmake <:+: s ∧ (rewriteAll [(oldCmake, newCmake)] s).1 = out := by
  rw [patchCmake, block_eq_some]
  by_cases present : oldCmake <:+: s <;> simp [present]

theorem cmake_placed (present : oldCmake <:+: s) :
    newCmake <:+: (rewriteAll [(oldCmake, newCmake)] s).1 := by
  have full : ∀ r ∈ [(oldCmake, newCmake)], r.1 ≠ [] :=
    List.forall_mem_singleton.mpr (List.cons_ne_nil _ _)
  have distinct : ∀ q ∈ [(oldCmake, newCmake)], ∀ r ∈ [(oldCmake, newCmake)],
      q ≠ r → Apart q.1 r.1 := by
    intro q mine r member other
    rw [List.mem_singleton.mp mine, List.mem_singleton.mp member] at other
    exact absurd rfl other
  exact infix_rewriteAll full distinct s _ List.mem_cons_self present

/-! ## `src/llama-model-loader.cpp` -/

/-- The text after the includes, and after `create_tensor`. -/
def loaderIncluded (s : Text) : Text := replaceFirst loaderInclude loaderIncludes s

def loaderCreated (v : Text × Text) (s : Text) : Text :=
  replaceFirst v.1 (createFor v.2) (loaderIncluded s)

theorem patchModelLoader_eq_some :
    patchModelLoader s = .ok (some out) ↔
      ¬moestream <:+: s ∧ ∃ v, variants.find? (fun v => v.1 <:+: loaderIncluded s) = some v ∧
        oldLoad <:+: loaderCreated v s ∧
        replaceFirst oldLoad newLoad (loaderCreated v s) = out := by
  rw [patchModelLoader, block_eq_some]
  simp only [ok_bind, replaceCreate_eq_ok, replaceAnchor_eq_ok]
  constructor
  · rintro ⟨fresh, _, ⟨v, hit, rfl⟩, present, result⟩
    exact ⟨fresh, v, hit, present, result⟩
  · rintro ⟨fresh, v, hit, present, result⟩
    exact ⟨fresh, _, ⟨v, hit, rfl⟩, present, result⟩

section Loader

variable {v : Text × Text} (member : v ∈ variants) (s)

theorem staged_loaderIncluded : Staged (loaderStages.take 1) s (loaderIncluded s) :=
  .one (replaceFirst_splice loaderInclude loaderIncludes s)

include member

theorem createRules_mem : (v.1, createFor v.2) ∈ createRules :=
  List.mem_map.mpr ⟨v, member, rfl⟩

theorem splice_loaderCreated : Splice createRules (loaderIncluded s) (loaderCreated v s) := by
  refine (replaceFirst_splice v.1 (createFor v.2) (loaderIncluded s)).mono ?_
  exact List.cons_subset.mpr ⟨createRules_mem member, List.nil_subset _⟩

variable {s}

theorem variant_infix_loaderIncluded : v.1 <:+: loaderIncluded s ↔ v.1 <:+: s :=
  (staged_loaderIncluded s).infix_iff stages_independent.1 (createRules_mem member)

theorem oldLoad_infix_loaderCreated : oldLoad <:+: loaderCreated v s ↔ oldLoad <:+: s := by
  have staged := (staged_loaderIncluded s).concat (splice_loaderCreated s member)
  exact staged.infix_iff stages_independent.1 List.mem_cons_self

end Loader

theorem patchModelLoader_writes_iff (fresh : ¬moestream <:+: s) :
    (∃ out, patchModelLoader s = .ok (some out)) ↔
      (∃ v ∈ variants, v.1 <:+: s) ∧ oldLoad <:+: s := by
  constructor
  · rintro ⟨out, done⟩
    obtain ⟨-, v, hit, present, -⟩ := patchModelLoader_eq_some.mp done
    have member := List.mem_of_find?_eq_some hit
    have found : v.1 <:+: loaderIncluded s := by simpa using List.find?_some hit
    exact ⟨⟨v, member, (variant_infix_loaderIncluded member).mp found⟩,
      (oldLoad_infix_loaderCreated member).mp present⟩
  · rintro ⟨⟨v, member, found⟩, present⟩
    have hits : (variants.find? (fun v => v.1 <:+: loaderIncluded s)).isSome := by
      rw [List.find?_isSome]
      exact ⟨v, member, decide_eq_true ((variant_infix_loaderIncluded member).mpr found)⟩
    obtain ⟨w, hit⟩ := Option.isSome_iff_exists.mp hits
    have chosen := List.mem_of_find?_eq_some hit
    exact ⟨_, patchModelLoader_eq_some.mpr
      ⟨fresh, w, hit, (oldLoad_infix_loaderCreated chosen).mpr present, rfl⟩⟩

theorem modelLoader_placed (done : patchModelLoader s = .ok (some out)) :
    newLoad <:+: out ∧ (∃ v ∈ variants, v.1 <:+: s ∧ createFor v.2 <:+: out) ∧
      (loaderInclude <:+: s → loaderIncludes <:+: out) := by
  obtain ⟨includeFull, variantsFull, loadFull⟩ := loader_ne_nil
  obtain ⟨-, v, hit, present, rfl⟩ := patchModelLoader_eq_some.mp done
  have member := List.mem_of_find?_eq_some hit
  have found : v.1 <:+: loaderIncluded s := by simpa using List.find?_some hit
  have fromCreated : Staged (loaderStages.drop 2) (loaderCreated v s)
      (replaceFirst oldLoad newLoad (loaderCreated v s)) := .one (replaceFirst_splice _ _ _)
  have fromIncluded : Staged (loaderStages.drop 1) (loaderIncluded s)
      (replaceFirst oldLoad newLoad (loaderCreated v s)) :=
    .cons (splice_loaderCreated s member) fromCreated
  refine ⟨infix_replaceFirst loadFull present, ⟨v, member, ?_, ?_⟩, ?_⟩
  · exact (variant_infix_loaderIncluded member).mp found
  · exact fromCreated.infix_kept (loaderStages.take 1) stages_independent.1
      (createRules_mem member) (infix_replaceFirst (variantsFull v member) found)
  · intro here
    exact fromIncluded.infix_kept [] stages_independent.1
      List.mem_cons_self (infix_replaceFirst includeFull here)

/-! ## `src/llama-graph.cpp` -/

/-- The text after the include, the routing, the calls, `build_ffn` and the start
and the end of the loop. -/
def graphIncluded (s : Text) : Text := replaceFirst graphInclude graphIncludes s

def graphRouted (s : Text) : Text := replaceFirst oldTopk newTopk (graphIncluded s)

def graphCalls (s : Text) : Text := (rewriteAll idsRules (graphRouted s)).1

def graphFfn (s : Text) : Text := replaceFirst oldFfn newFfn (graphCalls s)

def graphLooped (s : Text) : Text := replaceFirst oldLoop newLoop (graphFfn s)

def graphEnded (s : Text) : Text := replaceFirst oldEnd newEnd (graphLooped s)

theorem patchGraph_eq_some :
    patchGraph s = .ok (some out) ↔
      ¬moestream <:+: s ∧ oldTopk <:+: graphIncluded s ∧
        3 ≤ (rewriteAll idsRules (graphRouted s)).2 ∧ oldFfn <:+: graphCalls s ∧
        oldLoop <:+: graphFfn s ∧ oldEnd <:+: graphLooped s ∧ graphEnded s = out := by
  rw [patchGraph, block_eq_some]
  simp only [ok_bind, replaceIds_eq_ok, replaceAnchor_eq_ok]
  constructor
  · rintro ⟨fresh, _, ⟨topk, rfl⟩, _, ⟨calls, rfl⟩, _, ⟨ffn, rfl⟩, _, ⟨loop, rfl⟩, last, result⟩
    exact ⟨fresh, topk, calls, ffn, loop, last, result⟩
  · rintro ⟨fresh, topk, calls, ffn, loop, last, result⟩
    exact ⟨fresh, _, ⟨topk, rfl⟩, _, ⟨calls, rfl⟩, _, ⟨ffn, rfl⟩, _, ⟨loop, rfl⟩, last, result⟩

section Stages

variable (s)

theorem splice_graphCalls : Splice idsRules (graphRouted s) (graphCalls s) :=
  rewriteAll_splice ids_ne_nil (graphRouted s)

/-! The stages before each anchor is looked for. -/

theorem staged_graphIncluded : Staged (graphStages.take 1) s (graphIncluded s) :=
  .one (replaceFirst_splice graphInclude graphIncludes s)

theorem staged_graphRouted : Staged (graphStages.take 2) s (graphRouted s) :=
  (staged_graphIncluded s).concat (replaceFirst_splice oldTopk newTopk (graphIncluded s))

theorem staged_graphCalls : Staged (graphStages.take 3) s (graphCalls s) :=
  (staged_graphRouted s).concat (splice_graphCalls s)

theorem staged_graphFfn : Staged (graphStages.take 4) s (graphFfn s) :=
  (staged_graphCalls s).concat (replaceFirst_splice oldFfn newFfn (graphCalls s))

theorem staged_graphLooped : Staged (graphStages.take 5) s (graphLooped s) :=
  (staged_graphFfn s).concat (replaceFirst_splice oldLoop newLoop (graphFfn s))

/-! The stages after each text is put in. -/

theorem staged_from_looped : Staged (graphStages.drop 5) (graphLooped s) (graphEnded s) :=
  .one (replaceFirst_splice oldEnd newEnd (graphLooped s))

theorem staged_from_ffn : Staged (graphStages.drop 4) (graphFfn s) (graphEnded s) :=
  .cons (replaceFirst_splice oldLoop newLoop (graphFfn s)) (staged_from_looped s)

theorem staged_from_calls : Staged (graphStages.drop 3) (graphCalls s) (graphEnded s) :=
  .cons (replaceFirst_splice oldFfn newFfn (graphCalls s)) (staged_from_ffn s)

theorem staged_from_routed : Staged (graphStages.drop 2) (graphRouted s) (graphEnded s) :=
  .cons (splice_graphCalls s) (staged_from_calls s)

theorem staged_from_included : Staged (graphStages.drop 1) (graphIncluded s) (graphEnded s) :=
  .cons (replaceFirst_splice oldTopk newTopk (graphIncluded s)) (staged_from_routed s)

end Stages

theorem idsRules_count_graphRouted :
    (rewriteAll idsRules (graphRouted s)).2 = (rewriteAll idsRules s).2 :=
  rewriteAll_count_splice ids_ne_nil (staged_graphRouted s).splice
    (stages_independent.2.1.apart (graphStages.take 2)).1

theorem patchGraph_writes_iff (fresh : ¬moestream <:+: s) :
    (∃ out, patchGraph s = .ok (some out)) ↔
      oldTopk <:+: s ∧ 3 ≤ (rewriteAll idsRules s).2 ∧ oldFfn <:+: s ∧ oldLoop <:+: s ∧
        oldEnd <:+: s := by
  obtain ⟨-, independent, -⟩ := stages_independent
  have topk : oldTopk <:+: graphIncluded s ↔ oldTopk <:+: s :=
    (staged_graphIncluded s).infix_iff independent List.mem_cons_self
  have ffn : oldFfn <:+: graphCalls s ↔ oldFfn <:+: s :=
    (staged_graphCalls s).infix_iff independent List.mem_cons_self
  have loop : oldLoop <:+: graphFfn s ↔ oldLoop <:+: s :=
    (staged_graphFfn s).infix_iff independent List.mem_cons_self
  have last : oldEnd <:+: graphLooped s ↔ oldEnd <:+: s :=
    (staged_graphLooped s).infix_iff independent List.mem_cons_self
  rw [← topk, ← idsRules_count_graphRouted, ← ffn, ← loop, ← last]
  simp only [patchGraph_eq_some, fresh, exists_and_left, exists_eq', and_true,
    not_false_eq_true, true_and]

theorem graph_placed (done : patchGraph s = .ok (some out)) :
    newTopk <:+: out ∧ newFfn <:+: out ∧ newLoop <:+: out ∧ newEnd <:+: out ∧
      (graphInclude <:+: s → graphIncludes <:+: out) ∧
      ∀ r ∈ idsRules, ¬r.1 <:+: out ∧ (r.1 <:+: s → r.2 <:+: out) := by
  obtain ⟨-, independent, -⟩ := stages_independent
  obtain ⟨includeFull, topkFull, ffnFull, loopFull, endFull⟩ := graph_ne_nil
  obtain ⟨distinct, replaced, body⟩ := calls_apart
  obtain ⟨-, topk, -, ffn, loop, last, rfl⟩ := patchGraph_eq_some.mp done
  refine ⟨?_, ?_, ?_, infix_replaceFirst endFull last, ?_, ?_⟩
  · exact (staged_from_routed s).infix_kept (graphStages.take 1) independent List.mem_cons_self
      (infix_replaceFirst topkFull topk)
  · exact (staged_from_ffn s).infix_kept (graphStages.take 3) independent List.mem_cons_self
      (infix_replaceFirst ffnFull ffn)
  · exact (staged_from_looped s).infix_kept (graphStages.take 4) independent List.mem_cons_self
      (infix_replaceFirst loopFull loop)
  · exact fun here => (staged_from_included s).infix_kept [] independent List.mem_cons_self
      (infix_replaceFirst includeFull here)
  · intro r mine
    have later := (staged_from_calls s).splice.infix_iff (body r mine)
    constructor
    · exact later.not.mpr (not_infix_rewriteAll ids_ne_nil replaced _ r mine)
    · intro before
      have routed := ((staged_graphRouted s).infix_iff independent mine).mpr before
      exact (staged_from_calls s).infix_kept (graphStages.take 2) independent mine
        (infix_rewriteAll ids_ne_nil distinct _ r mine routed)

/-! ## `ggml/src/ggml-vulkan/ggml-vulkan.cpp` -/

theorem patchHostPtr_eq_some :
    patchHostPtr s = .ok (some out) ↔
      ¬hostPtrMarker <:+: s ∧ oldBase <:+: s ∧ replaceFirst oldBase newBase s = out := by
  rw [patchHostPtr, block_eq_some, replaceAnchor_eq_ok]

theorem patchFromHostPtr_eq_some :
    patchFromHostPtr s = .ok (some out) ↔
      ¬fromHostPtrMarker <:+: s ∧ oldAlignment <:+: s ∧
        replaceFirst oldAlignment newAlignment s = out := by
  rw [patchFromHostPtr, block_eq_some, replaceAnchor_eq_ok]

def vulkanBased (s : Text) : Text := replaceFirst oldBase newBase s

theorem staged_vulkanBased (s : Text) : Staged (vulkanStages.take 1) s (vulkanBased s) :=
  .one (replaceFirst_splice oldBase newBase s)

theorem oldAlignment_infix_vulkanBased :
    oldAlignment <:+: vulkanBased s ↔ oldAlignment <:+: s :=
  (staged_vulkanBased s).infix_iff stages_independent.2.2 List.mem_cons_self

theorem fromHostPtrMarker_infix_vulkanBased :
    fromHostPtrMarker <:+: vulkanBased s ↔ fromHostPtrMarker <:+: s :=
  (staged_vulkanBased s).splice.infix_iff
    (List.forall_mem_singleton.mpr markers_apart.2.2)

theorem staged_from_based (s : Text) :
    Staged (vulkanStages.drop 1) s (replaceFirst oldAlignment newAlignment s) :=
  .one (replaceFirst_splice oldAlignment newAlignment s)

theorem vulkan_placed (base : oldBase <:+: s) (alignment : oldAlignment <:+: s) :
    newBase <:+: replaceFirst oldAlignment newAlignment (vulkanBased s) ∧
      newAlignment <:+: replaceFirst oldAlignment newAlignment (vulkanBased s) := by
  obtain ⟨baseFull, alignmentFull⟩ := vulkan_ne_nil
  constructor
  · exact (staged_from_based _).infix_kept [] stages_independent.2.2 List.mem_cons_self
      (infix_replaceFirst baseFull base)
  · exact infix_replaceFirst alignmentFull (oldAlignment_infix_vulkanBased.mpr alignment)

/-! ## Markers -/

theorem patchCmake_marks (done : patchCmake s = .ok (some out)) : cmakeMarker <:+: out := by
  obtain ⟨⟨written, -⟩, -⟩ := markers_apart
  obtain ⟨-, present, rfl⟩ := patchCmake_eq_some.mp done
  exact written.trans (cmake_placed present)

theorem patchModelLoader_marks (done : patchModelLoader s = .ok (some out)) :
    moestream <:+: out := by
  obtain ⟨⟨-, written, -⟩, -⟩ := markers_apart
  exact written.trans (modelLoader_placed done).1

theorem patchGraph_marks (done : patchGraph s = .ok (some out)) : moestream <:+: out := by
  obtain ⟨⟨-, -, written, -⟩, -⟩ := markers_apart
  exact written.trans (graph_placed done).2.2.2.1

/-- Block 4 writes its marker, and does not write that of block 5. -/
theorem patchHostPtr_marks (done : patchHostPtr s = .ok (some out)) :
    hostPtrMarker <:+: out ∧ (fromHostPtrMarker <:+: out ↔ fromHostPtrMarker <:+: s) := by
  obtain ⟨⟨-, -, -, written, -⟩, -⟩ := markers_apart
  obtain ⟨-, present, rfl⟩ := patchHostPtr_eq_some.mp done
  exact ⟨written.trans (infix_replaceFirst vulkan_ne_nil.1 present),
    fromHostPtrMarker_infix_vulkanBased⟩

theorem patchFromHostPtr_marks (done : patchFromHostPtr s = .ok (some out)) :
    fromHostPtrMarker <:+: out ∧ (hostPtrMarker <:+: s → hostPtrMarker <:+: out) := by
  obtain ⟨⟨-, -, -, -, written⟩, separate, -⟩ := markers_apart
  obtain ⟨-, present, rfl⟩ := patchFromHostPtr_eq_some.mp done
  exact ⟨written.trans (infix_replaceFirst vulkan_ne_nil.2 present),
    (staged_from_based s).splice.infix_kept (List.forall_mem_singleton.mpr separate)⟩

end MoeStream.Patch
