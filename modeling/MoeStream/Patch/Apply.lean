import MoeStream.Foundation.FilePatches
import MoeStream.Foundation.Replace
import MoeStream.Patch.Literals

/-!
# The patcher

Embedding of `apply.py`.  A block reads its file, does nothing where it finds its
marker, and otherwise replaces one text after another and writes the file; an
assertion that fails ends the run before the block has written.
-/

set_option autoImplicit false

namespace MoeStream.Patch

open Foundation.FilePatches Foundation.Replace

/-- `src/CMakeLists.txt`, `src/llama-model-loader.cpp`, `src/llama-graph.cpp` and
`ggml/src/ggml-vulkan/ggml-vulkan.cpp`. -/
inductive Target
  | cmake
  | modelLoader
  | graph
  | vulkan
deriving DecidableEq

abbrev Tree := Target → Text

/-- `assert old in s, message` and `s.replace(old, new, 1)`. -/
def replaceAnchor (old new : Text) (message : String) (s : Text) : Except String Text :=
  if old <:+: s then .ok (replaceFirst old new s) else .error message

def block (marker : Text) (body : Text → Except String Text) (s : Text) :
    Except String (Option Text) :=
  if marker <:+: s then .ok none else (body s).map some

/-! ## Block 1: the sources -/

def cmakeMarker : Text := chars "llama-moestream.cpp" rfl

def patchCmake : Text → Except String (Option Text) :=
  block cmakeMarker fun s =>
    if oldCmake <:+: s then .ok (rewriteAll [(oldCmake, newCmake)] s).1
    else .error "CMakeLists source list anchor not found"

/-! ## Block 2: `create_tensor` and `load_all_data` -/

def moestream : Text := chars "moestream" rfl

/-- The anchors, each with the expression upstream duplicates from. -/
def variants : List (Text × Text) :=
  [(oldCreate, chars "cur" rfl), (oldReshape, chars "&t_meta" rfl)]

/-- `new.replace('MS_META', ms_meta)`. -/
def createFor (msMeta : Text) : Text := (rewriteAll [(chars "MS_META" rfl, msMeta)] newCreate).1

def replaceCreate (s : Text) : Except String Text :=
  match variants.find? (fun v => v.1 <:+: s) with
  | none =>
      .error ("create_tensor anchor not found " ++
        "(neither the pre-#26531 `cur` nor the post-#26531 `&t_meta` spelling)")
  | some (anchor, msMeta) => .ok (replaceFirst anchor (createFor msMeta) s)

def patchModelLoader : Text → Except String (Option Text) :=
  block moestream fun s => do
    let s := replaceFirst loaderInclude loaderIncludes s
    let s ← replaceCreate s
    replaceAnchor oldLoad newLoad "load_all_data anchor not found" s

/-! ## Block 3: the graph -/

def idsCall (exps : Text) : Text :=
  chars "build_lora_mm_id(" rfl ++ exps ++ chars ", cur, selected_experts" rfl

/-- `repl`. -/
def idsReplaced (call : Text) : Text :=
  (rewriteAll [(chars "cur, selected_experts" rfl, chars "cur, ms_ids" rfl)] call).1

def idsRules : List (Text × Text) :=
  [chars "gate_up_exps" rfl, chars "up_exps" rfl, chars "gate_exps" rfl,
    chars "down_exps" rfl].map fun exps => (idsCall exps, idsReplaced (idsCall exps))

/-- `n_mm` counts the calls of `repl`. -/
def replaceIds (s : Text) : Except String Text :=
  if 3 ≤ (rewriteAll idsRules s).2 then .ok (rewriteAll idsRules s).1
  else .error s!"expected at least 3 mul_mat_id replacements, got {(rewriteAll idsRules s).2}"

def patchGraph : Text → Except String (Option Text) :=
  block moestream fun s => do
    let s := replaceFirst graphInclude graphIncludes s
    let s ← replaceAnchor oldTopk newTopk "ffn_moe_topk cb anchor not found" s
    let s ← replaceIds s
    let s ← replaceAnchor oldFfn newFfn "build_ffn anchor not found" s
    let s ← replaceAnchor oldLoop newLoop "experts declaration not found" s
    replaceAnchor oldEnd newEnd "ffn_moe_down cb not found" s

/-! ## Blocks 4 and 5: the Vulkan accessors -/

def hostPtrMarker : Text := chars "ggml_backend_vk_buffer_host_ptr" rfl

def patchHostPtr : Text → Except String (Option Text) :=
  block hostPtrMarker (replaceAnchor oldBase newBase "get_base anchor not found")

def fromHostPtrMarker : Text := chars "ggml_backend_vk_buffer_from_host_ptr" rfl

def patchFromHostPtr : Text → Except String (Option Text) :=
  block fromHostPtrMarker
    (replaceAnchor oldAlignment newAlignment "buffer_type_get_alignment anchor not found")

/-! ## A run -/

def blocks : List (Patch Target Text String) :=
  [⟨.cmake, patchCmake⟩, ⟨.modelLoader, patchModelLoader⟩, ⟨.graph, patchGraph⟩,
    ⟨.vulkan, patchHostPtr⟩, ⟨.vulkan, patchFromHostPtr⟩]

/-- `apply.py` on a tree; the exit status is 0 when nothing failed. -/
def apply (t : Tree) : Outcome Target Text String := run blocks t

structure Unpatched (t : Tree) : Prop where
  cmake : ¬cmakeMarker <:+: t .cmake
  modelLoader : ¬moestream <:+: t .modelLoader
  graph : ¬moestream <:+: t .graph
  hostPtr : ¬hostPtrMarker <:+: t .vulkan
  fromHostPtr : ¬fromHostPtrMarker <:+: t .vulkan

/-! ## The replacements -/

inductive Replacement
  | sources
  | loaderInclude
  | createTensor
  | loadAllData
  | graphInclude
  | routing
  | ids
  | buildFfn
  | loopStart
  | loopEnd
  | hostPtr
  | fromHostPtr
deriving DecidableEq

def Present (t : Tree) : Replacement → Prop
  | .sources => oldCmake <:+: t .cmake
  | .loaderInclude => loaderInclude <:+: t .modelLoader
  | .createTensor => ∃ v ∈ variants, v.1 <:+: t .modelLoader
  | .loadAllData => oldLoad <:+: t .modelLoader
  | .graphInclude => graphInclude <:+: t .graph
  | .routing => oldTopk <:+: t .graph
  | .ids => ∀ r ∈ idsRules, r.1 <:+: t .graph
  | .buildFfn => oldFfn <:+: t .graph
  | .loopStart => oldLoop <:+: t .graph
  | .loopEnd => oldEnd <:+: t .graph
  | .hostPtr => oldBase <:+: t .vulkan
  | .fromHostPtr => oldAlignment <:+: t .vulkan

/-- What it is replaced by is in the file afterwards; of the calls each is, and
none is left as it was. -/
def Placed (t t' : Tree) : Replacement → Prop
  | .sources => newCmake <:+: t' .cmake
  | .loaderInclude => loaderIncludes <:+: t' .modelLoader
  | .createTensor =>
      ∃ v ∈ variants, v.1 <:+: t .modelLoader ∧ createFor v.2 <:+: t' .modelLoader
  | .loadAllData => newLoad <:+: t' .modelLoader
  | .graphInclude => graphIncludes <:+: t' .graph
  | .routing => newTopk <:+: t' .graph
  | .ids => ∀ r ∈ idsRules, ¬r.1 <:+: t' .graph ∧ r.2 <:+: t' .graph
  | .buildFfn => newFfn <:+: t' .graph
  | .loopStart => newLoop <:+: t' .graph
  | .loopEnd => newEnd <:+: t' .graph
  | .hostPtr => newBase <:+: t' .vulkan
  | .fromHostPtr => newAlignment <:+: t' .vulkan

def TookEffect (t t' : Tree) (r : Replacement) : Prop := Present t r ∧ Placed t t' r

/-- The replacements before which the patcher asserts that the text is there. -/
def Asserted (r : Replacement) : Prop := r ≠ .loaderInclude ∧ r ≠ .graphInclude ∧ r ≠ .ids

/-- `n_mm >= 3`: of the calls only a number is asserted, not which they are. -/
def Counted (t : Tree) : Prop := 3 ≤ (rewriteAll idsRules (t .graph)).2

end MoeStream.Patch
