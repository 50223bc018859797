import Mathlib.Data.List.Infix

/-!
# The texts of the patcher

Embedding of the literals of `apply.py`: what it looks for in the four files of
llama.cpp, and what it puts there.
-/

set_option autoImplicit false
set_option maxRecDepth 30000

namespace MoeStream.Patch

/-- A file as `read_text` returns it, or a part of one. -/
abbrev Text := List Char

/-- The characters of a literal, found by unification with `rfl`. -/
def chars {l : List Char} (s : String) (_ : String.ofList l = s) : Text := l

/-! ## `src/CMakeLists.txt` -/

def oldCmake : Text := chars "            llama-model-loader.cpp" rfl

def newCmake : Text := chars
  "            llama-moestream.cpp
            expert_cache.cpp
            llama-model-loader.cpp"
  rfl

/-! ## `src/llama-model-loader.cpp` -/

def loaderInclude : Text := chars "#include \"llama-model-loader.h\"" rfl

def loaderIncludes : Text := chars
  "#include \"llama-model-loader.h\"\n#include \"llama-moestream.h\""
  rfl

def oldCreate : Text := chars
  "    const bool duplicated = flags & TENSOR_DUPLICATED;

    struct ggml_tensor * tensor = ggml_dup_tensor(ctx, cur);
    ggml_set_name(tensor, ggml_get_name(cur));"
  rfl

def oldReshape : Text := chars
  "    const bool duplicated = flags & TENSOR_DUPLICATED;

    struct ggml_tensor * tensor = ggml_dup_tensor(ctx, &t_meta);
    ggml_set_name(tensor, ggml_get_name(&t_meta));"
  rfl

/-- For either spelling, `MS_META` being what upstream duplicates from. -/
def newCreate : Text := chars
  "    const bool duplicated = flags & TENSOR_DUPLICATED;

    struct ggml_tensor * tensor = nullptr;
    \x7b
        // ---- MoEStream: allocate expert tensors as a reduced slot slab ----
        const struct ggml_tensor * ms_meta = MS_META;
        const uint32_t n_slot = moestream::slab_slots(ggml_get_name(ms_meta), ms_meta->ne[2]);
        if (n_slot > 0 && ggml_n_dims(ms_meta) == 3) \x7b
            tensor = ggml_new_tensor_3d(ctx, ms_meta->type, ms_meta->ne[0], ms_meta->ne[1], (int64_t) n_slot);
            ggml_set_name(tensor, ggml_get_name(ms_meta));
            const auto * w = get_weight(ggml_get_name(ms_meta));
            if (w) \x7b
                const uint64_t ebytes = ggml_nbytes(ms_meta) / (uint64_t) ms_meta->ne[2];
                moestream::register_slab(ggml_get_name(ms_meta), tensor,
                                         w->offs, ebytes, ms_meta->ne[2], (int) w->idx);
            \x7d
        \x7d
        // ---- MoEStream: dense FFN weights on a streamed layer ----
        //   Allocated as a one-row stub. The real bytes are read into the arena
        //   at graph time; allocating the full tensor here would leave the whole
        //   model resident and save nothing. Nothing reads the stub, because
        //   build_ffn substitutes the arena tensor for it.
        if (!tensor && moestream::dense_claim(ggml_get_name(ms_meta), ggml_n_dims(ms_meta), ggml_nbytes(ms_meta))) \x7b
            tensor = ggml_new_tensor_2d(ctx, ms_meta->type, ms_meta->ne[0], 1);
            ggml_set_name(tensor, ggml_get_name(ms_meta));
            const auto * w = get_weight(ggml_get_name(ms_meta));
            if (w) \x7b
                moestream::register_dense(ggml_get_name(ms_meta), tensor, w->offs,
                                          ggml_nbytes(ms_meta), (int) w->idx,
                                          (int) ms_meta->type, ms_meta->ne[0], ms_meta->ne[1]);
            \x7d
        \x7d
    \x7d
    if (!tensor) \x7b
        tensor = ggml_dup_tensor(ctx, MS_META);
        ggml_set_name(tensor, ggml_get_name(MS_META));
    \x7d"
  rfl

def oldLoad : Text := chars "        const auto * weight = get_weight(ggml_get_name(cur));" rfl

def newLoad : Text := chars
  "        if (moestream::skip_load(ggml_get_name(cur))) \x7b continue; \x7d
        const auto * weight = get_weight(ggml_get_name(cur));"
  rfl

/-! ## `src/llama-graph.cpp` -/

def graphInclude : Text := chars "#include \"llama-graph.h\"" rfl

def graphIncludes : Text := chars "#include \"llama-graph.h\"\n#include \"llama-moestream.h\"" rfl

def oldTopk : Text := chars "    cb(selected_experts, \"ffn_moe_topk\", il);" rfl

def newTopk : Text := chars
  "    cb(selected_experts, \"ffn_moe_topk\", il);

    // MoEStream: select the path.
    //   prefill (many tokens): load one layer's full expert set into the arena
    //                          and keep ids as expert_ids (no remap needed).
    //   decode  (few tokens):  slab plus a remap to slot_ids.
    ggml_tensor * ms_g = moestream::prefill_exps(il, 0, (int) n_tokens);
    ggml_tensor * ms_u = moestream::prefill_exps(il, 1, (int) n_tokens);
    ggml_tensor * ms_d = moestream::prefill_exps(il, 2, (int) n_tokens);
    const bool ms_prefill = ms_g && ms_u && ms_d;
    // On the prefill path, insert a load op that passes ids through. Using it
    // as mul_mat_id's ids enforces \"arena filled -> mul_mat_id runs\".
    ggml_tensor * ms_ids = ms_prefill
                             ? moestream::build_prefill_load(ctx0, selected_experts, il)
                             : moestream::build_remap2(ctx0, selected_experts, cur, il);
    if (ms_prefill) \x7b gate_exps = ms_g; up_exps = ms_u; down_exps = ms_d; \x7d"
  rfl

def oldFfn : Text := chars "    ggml_tensor * tmp = up ? build_lora_mm(up, cur) : cur;" rfl

def newFfn : Text := chars
  "    // MoEStream: on a streamed dense layer the FFN weights live in the arena.
    //   build_dense_load fills it and returns `cur` unchanged, so consuming its
    //   output below is what orders \"arena filled -> mul_mat runs\".
    if (moestream::dense_active()) \x7b
        ggml_tensor * ms_du = moestream::dense_ffn(il, 1);
        ggml_tensor * ms_dd = moestream::dense_ffn(il, 2);
        if (ms_du && ms_dd) \x7b
            ggml_tensor * ms_dg = moestream::dense_ffn(il, 0);
            cur  = moestream::build_dense_load(ctx0, cur, il);
            up   = ms_du;
            down = ms_dd;
            if (gate && ms_dg) gate = ms_dg;
        \x7d
    \x7d

    ggml_tensor * tmp = up ? build_lora_mm(up, cur) : cur;"
  rfl

def oldLoop : Text := chars "    ggml_tensor * experts = nullptr;" rfl

def newLoop : Text := chars
  "    ggml_tensor * experts = nullptr;

    // MoEStream Expert Sweep (§20.2): split the FFN when union > slab capacity.
    //   y = sum_p FFN(x, ids_p); experts outside a pass map to the zero slot
    //   and contribute nothing.
    //   For decode (n_tokens=1), ms_np is 1 and this matches the normal path.
    ggml_tensor * ms_ffn_in = cur;
    ggml_tensor * ms_acc    = nullptr;
    ggml_tensor * ms_prev   = nullptr;   // previous pass's output (dependency target)
    const int ms_np = ms_prefill ? 1 : moestream::n_passes((int) n_tokens);
    for (int ms_p = 0; ms_p < ms_np; ++ms_p) \x7b
    cur = ms_ffn_in;
    if (!ms_prefill && ms_np > 1) \x7b
        ms_ids = moestream::build_remap_pass(ctx0, selected_experts, ms_prev, il, ms_p, ms_np);
    \x7d"
  rfl

def oldEnd : Text := chars "    cb(experts, \"ffn_moe_down\", il);" rfl

def newEnd : Text := chars
  "    cb(experts, \"ffn_moe_down\", il);

    // Expert Sweep: accumulate per-pass results (the sum is order-independent)
    //   ms_prev points at the previous pass's own output. Depending on the add
    //   chain instead fails to force the previous pass's GPU work to complete
    //   from pass 2 onward, and the slab gets overwritten.
    experts = moestream::build_marker(ctx0, experts, il, ms_p);
    // Materialize the pass output. Without this, later passes reuse the buffer
    // for their intermediates and the contents are corrupt by the final add
    // (found by inserting an identity CPU op, which moved PPL from 520801 to 185).
    if (ms_np > 1) experts = ggml_cont(ctx0, experts);
    // Register each pass with the graph explicitly. Without this, nothing is
    // registered until the final add, gallocr reuses buffers across passes, and
    // the result is corrupted -- the identity-op experiment (PPL 520801 -> 185)
    // identified this as aliasing.
    ggml_build_forward_expand(gf, experts);
    ms_prev = experts;
    \x7b   // Diagnostic MOESTREAM_SWEEP_TEST=3: keep only pass 0's result and add
        //   nothing else. The other passes leave the graph and are not even
        //   executed, which tests whether the loop machinery is itself harmless.
        static const char * st = getenv(\"MOESTREAM_SWEEP_TEST\");
        const int stv = st ? atoi(st) : 0;
        ggml_tensor * contrib = experts;
        // SWEEP_TEST=4: every pass owns every expert, but passes above 0 are
        //   scaled to zero with ggml_scale, so y = FFN + 0*FFN = FFN.
        //   Comparing against zeroing via the zero slot isolates which of the
        //   two mechanisms is broken.
        if (stv == 4 && ms_p > 0) contrib = ggml_scale(ctx0, experts, 0.0f);
        if (stv != 3 || ms_p == 0) \x7b
            ms_acc = ms_acc ? ggml_add(ctx0, ms_acc, contrib) : contrib;
        \x7d
    \x7d
    \x7d  // end MoEStream pass loop
    experts = ms_acc;"
  rfl

/-! ## `ggml/src/ggml-vulkan/ggml-vulkan.cpp` -/

def oldBase : Text := chars
  "static void * ggml_backend_vk_buffer_get_base(ggml_backend_buffer_t buffer) \x7b"
  rfl

def newBase : Text := chars
  "// MoEStream: on host-visible UMA, return a direct write target for tensor data.
//   Returns nullptr when unavailable (e.g. a discrete GPU); callers then fall
//   back to the normal tensor_set path.
extern \"C\" void * ggml_backend_vk_buffer_host_ptr(ggml_backend_buffer_t buffer, size_t offset) \x7b
    if (!buffer || !buffer->context) return nullptr;
    ggml_backend_vk_buffer_context * ctx = (ggml_backend_vk_buffer_context *) buffer->context;
    if (!ctx->dev_buffer || !ctx->dev_buffer->ptr) return nullptr;
    if (!(ctx->dev_buffer->memory_property_flags & vk::MemoryPropertyFlagBits::eHostVisible))
        return nullptr;
    if (offset + 1 > ctx->dev_buffer->size) return nullptr;
    return (char *) ctx->dev_buffer->ptr + offset;
\x7d

static void * ggml_backend_vk_buffer_get_base(ggml_backend_buffer_t buffer) \x7b"
  rfl

def oldAlignment : Text := chars
  "static size_t ggml_backend_vk_buffer_type_get_alignment(ggml_backend_buffer_type_t buft) \x7b"
  rfl

def newAlignment : Text := chars
  "// MoEStream: import host memory (e.g. an mmap) as a ggml_backend_buffer.
//   Returns nullptr where VK_EXT_external_memory_host is unavailable.
//   ptr must be aligned to minImportedHostPointerAlignment.
extern \"C\" ggml_backend_buffer_t ggml_backend_vk_buffer_from_host_ptr(
        ggml_backend_buffer_type_t buft, void * ptr, size_t size) \x7b
    if (!buft || !ptr || !size) return nullptr;
    ggml_backend_vk_buffer_type_context * ctx = (ggml_backend_vk_buffer_type_context *) buft->context;
    if (!ctx->device->external_memory_host) return nullptr;
    vk_buffer dev_buffer = nullptr;
    try \x7b
        dev_buffer = ggml_vk_create_buffer(ctx->device, size,
            \x7bvk::MemoryPropertyFlagBits::eHostVisible | vk::MemoryPropertyFlagBits::eHostCoherent\x7d,
            ptr);
    \x7d catch (const vk::SystemError & e) \x7b
        return nullptr;
    \x7d
    if (!dev_buffer) return nullptr;
    ggml_backend_vk_buffer_context * bufctx =
        new ggml_backend_vk_buffer_context(ctx->device, std::move(dev_buffer), ctx->name);
    return ggml_backend_buffer_init(buft, ggml_backend_vk_buffer_interface, bufctx, size);
\x7d

extern \"C\" size_t ggml_backend_vk_host_ptr_alignment(ggml_backend_buffer_type_t buft) \x7b
    if (!buft) return 0;
    ggml_backend_vk_buffer_type_context * ctx = (ggml_backend_vk_buffer_type_context *) buft->context;
    return ctx->device->external_memory_host ? 4096 : 0;
\x7d

static size_t ggml_backend_vk_buffer_type_get_alignment(ggml_backend_buffer_type_t buft) \x7b"
  rfl

end MoeStream.Patch
