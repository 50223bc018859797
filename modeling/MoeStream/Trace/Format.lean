import MoeStream.Foundation.ByteReader
import MoeStream.Foundation.OrderedMap
import MoeStream.Foundation.Parts

/-!
# Expert traces

Embedding of the capture tool `expert_trace` (the evaluation callback, the flush
of a batch and the header) and of the two readers of its file: `load_trace` of
the cache replay and `load` of the trace analysis.
-/

set_option autoImplicit false

namespace MoeStream.ExpertTrace

open Foundation Foundation.ByteReader Foundation.Parts

/-! ## What is captured -/

inductive TensorType where
  | i32
  | f32
  | other
  deriving DecidableEq

/-- What the name of a tensor says; `rank` is the `weight_rank` of the name. -/
inductive TensorName where
  | topk (il : Nat)
  | weights (rank il : Nat)
  | other

/-- A tensor given to the callback: its shape `ne`, its strides `nb`, its bytes. -/
structure Tensor where
  name : TensorName
  type : TensorType
  ne : Nat → Nat
  nb : Nat → Nat
  raw : Bytes

def Tensor.word (t : Tensor) (off : Nat) : Bytes := (t.raw.drop off).take 4

structure LayerRouting where
  ids : List Int := []
  /-- The bits of each weight. -/
  w : List Nat := []
  nTokens : Nat := 0
  hasW : Bool := false

instance : Inhabited LayerRouting := ⟨{}⟩

structure TraceCtx where
  topK : Nat := 0
  batch : OrderedMap Nat LayerRouting := []
  out : Bytes := []
  nTokenWritten : Nat := 0
  wPriority : OrderedMap Nat Nat := []

/-- The entries of `nt` rows of `tk`. -/
def entries {α : Type} (nt tk : Nat) (entry : Nat → Nat → α) : List α :=
  (List.range nt).flatMap fun j => (List.range tk).map (entry j)

/-- Entry `k` of row `j` of a routing tensor. -/
def Tensor.id (t : Tensor) (j k : Nat) : Int := signed (t.word (j * t.nb 1 + k * t.nb 0))

def Tensor.weightShape (t : Tensor) : Nat × Nat × Nat × Nat :=
  if t.ne 0 = 1 then (t.ne 2, t.ne 1, t.nb 2, t.nb 1)
  else if t.ne 1 = 1 then (t.ne 2, t.ne 0, t.nb 2, t.nb 0)
  else (t.ne 1, t.ne 0, t.nb 1, t.nb 0)

def evalCb (ctx : TraceCtx) (t : Tensor) : TraceCtx :=
  match t.name with
  | .topk il =>
      if t.type ≠ .i32 then ctx
      else
        { ctx with
          batch := ctx.batch.modify il fun lr =>
            { lr with ids := entries (t.ne 1) (t.ne 0) t.id, nTokens := t.ne 1 }
          topK := if ctx.topK = 0 then t.ne 0 else ctx.topK }
  | .weights rank il =>
      if t.type ≠ .f32 then ctx
      else if (ctx.wPriority.find il).any (rank ≤ ·) then ctx
      else
        let (nt, tk, strideT, strideK) := t.weightShape
        if ctx.topK ≠ 0 ∧ tk ≠ ctx.topK then ctx
        else
          { ctx with
            batch := ctx.batch.modify il fun lr =>
              { lr with
                w := entries nt tk fun j k => ofBytes (t.word (j * strideT + k * strideK))
                hasW := true }
            wPriority := ctx.wPriority.modify il fun _ => rank }
  | .other => ctx

/-! ## What is written -/

section Write

-- `ggml_fp32_to_fp16`, on bits
variable (f16 : Nat → Nat)

/-- The weight of entry `k` of token `t`; zero where none was captured. -/
def LayerRouting.weight (lr : LayerRouting) (tk t k : Nat) : Nat :=
  if lr.hasW = true ∧ (t + 1) * tk ≤ lr.w.length then lr.w.getD (t * tk + k) 0 else 0

/-- What `flush_batch` writes of a layer for token `t`, in numbers of 16 bits. -/
def LayerRouting.record (lr : LayerRouting) (tk t : Nat) : List Nat :=
  if lr.nTokens ≤ t then []
  else
    ((List.range tk).map fun k => (lr.ids.getD (t * tk + k) 0 % 2 ^ 16).toNat) ++
      (List.range tk).map fun k => f16 (lr.weight tk t k) % 2 ^ 16

def putWords (ws : List Nat) : Bytes := ws.flatMap (toBytes 2)

def flushBatch (ctx : TraceCtx) (nTokens : Nat) : TraceCtx :=
  if ctx.batch = [] then ctx
  else
    { ctx with
      out := ctx.out ++ (List.range nTokens).flatMap fun t =>
        ctx.batch.flatMap fun layer => putWords (layer.2.record f16 ctx.topK t)
      nTokenWritten := (ctx.nTokenWritten + nTokens) % 2 ^ 64
      batch := []
      wPriority := [] }

/-- A decoded batch: its number of tokens, and the tensors the callback got. -/
structure Batch where
  n : Nat
  tensors : List Tensor

/-- One turn of the loop of `main`, with `n_moe_layer`. -/
def captureBatch (s : TraceCtx × Nat) (b : Batch) : TraceCtx × Nat :=
  let ctx := b.tensors.foldl evalCb s.1
  (flushBatch f16 ctx b.n, if s.2 = 0 then ctx.batch.length else s.2)

def capture (bs : List Batch) : TraceCtx × Nat := bs.foldl (captureBatch f16) ({}, 0)

def magic : Nat := 0x5254534D

def finalHeader (s : TraceCtx × Nat) (nLayer : Nat) : List Nat :=
  [magic, 1, s.2, 0, s.1.topK, s.1.nTokenWritten % 2 ^ 32, s.1.nTokenWritten / 2 ^ 32, nLayer]

def traceFile (nLayer : Nat) (bs : List Batch) : Bytes :=
  let s := capture f16 bs
  (finalHeader s nLayer).flatMap (toBytes 4) ++ s.1.out

end Write

/-! ## What is read -/

def words : Bytes → List Nat
  | a :: b :: rest => ofBytes [a, b] :: words rest
  | _ => []

/-- Number `i` of the header. -/
def headerWord (file : Bytes) (i : Nat) : Nat := ofBytes (part 4 i file)

def headerTokens (file : Bytes) : Nat := headerWord file 5 ||| headerWord file 6 <<< 32

structure Trace where
  nMoe : Nat
  topK : Nat
  nToken : Nat
  ids : List Nat

/-- The ids of a token in a layer, `ids` being `[n_token][n_moe][top_k]`. -/
def Trace.row (tr : Trace) (g l : Nat) : List Nat := part tr.topK (g * tr.nMoe + l) tr.ids

/-- The loop of `load_trace`, which a short read ends. -/
def readTokens (nMoe topK : Nat) : Nat → List Nat → List Nat
  | 0, _ => []
  | n + 1, ws =>
      let per := nMoe * topK * 2
      if ws.length < per then []
      else
        ((List.range nMoe).flatMap fun l =>
            (List.range topK).map fun k => ws.getD (l * topK * 2 + k) 0) ++
          readTokens nMoe topK n (ws.drop per)

/-- `load_trace`; a division by zero ends the program. -/
def loadTrace (file : Bytes) : Option Trace :=
  if file.length < 32 then none
  else if headerWord file 0 ≠ magic then none
  else
    let nMoe := headerWord file 2
    let topK := headerWord file 4
    let ids := readTokens nMoe topK (headerTokens file) (words (file.drop 32))
    if nMoe * topK = 0 then none
    else
      let nToken := ids.length / (nMoe * topK)
      if 0 < nToken then some { nMoe, topK, nToken, ids } else none

/-- What `load` returns: the ids as a trace, and the bits of the weights. -/
structure Loaded extends Trace where
  w : List Nat
  nLayer : Nat

/-- `load` of the analysis: `reshape(-1, n_moe, 2, top_k)` makes a layer of a
token two parts of length `top_k`. -/
def load (file : Bytes) : Option Loaded :=
  if file.length < 32 then none
  else if headerWord file 0 ≠ magic then none
  else if file.length % 2 ≠ 0 then none
  else
    let nMoe := headerWord file 2
    let topK := headerWord file 4
    let data := words (file.drop 32)
    let perTok := nMoe * topK * 2
    if perTok = 0 then none
    else
      let nToken := data.length / perTok
      let rows (half : Nat) := (List.range nToken).flatMap fun g =>
        (List.range nMoe).flatMap fun l => part topK ((g * nMoe + l) * 2 + half) data
      some { nMoe, topK, nToken, ids := rows 0, w := rows 1, nLayer := headerWord file 7 }

end MoeStream.ExpertTrace
