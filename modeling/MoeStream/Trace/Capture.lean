import Mathlib.Data.List.Sort
import MoeStream.Trace.Format

/-!
# What an expert trace holds

A run of the capture tool writes, for each token of each batch, one record for
each layer whose routing tensor covered the token, and nothing for the others.
-/

set_option autoImplicit false

namespace MoeStream.ExpertTrace

open Foundation Foundation.ByteReader Foundation.Parts

/-- The mixture-of-experts layers of a model, and how many experts each of them
has and selects. -/
structure MoeModel where
  layers : List Nat
  topK : Nat
  nExpert : Nat
  ascending : layers.Pairwise (· < ·)
  numbered : ∀ il ∈ layers, il < 2 ^ 31
  selects : 0 < topK
  topK_le : topK ≤ nExpert
  few : nExpert ≤ 65536

def Tensor.routes (t : Tensor) : Option Nat :=
  match t.name with
  | .topk il => some il
  | _ => none

theorem Tensor.routes_eq_some {t : Tensor} {il : Nat} :
    t.routes = some il ↔ t.name = .topk il := by
  simp only [Tensor.routes]
  cases t.name <;> simp

/-- The ids a routing tensor has for token `j`. -/
def Tensor.selected (t : Tensor) (j : Nat) : List Int := (List.range (t.ne 0)).map (t.id j)

/-- A batch of the model: the callback gets the routing tensor of each layer
once, which covers any number of tokens. -/
structure Batch.Of (m : MoeModel) (b : Batch) : Prop where
  nonempty : 0 < b.n
  once : (b.tensors.filterMap Tensor.routes).Perm m.layers
  routing : ∀ t ∈ b.tensors, ∀ il, t.name = .topk il → t.type = .i32 ∧ t.ne 0 = m.topK ∧
    ∀ j < t.ne 1, ∀ k < t.ne 0, 0 ≤ t.id j k ∧ t.id j k < m.nExpert
  weighted : ∀ t ∈ b.tensors, ∀ rank il, t.name = .weights rank il → il ∈ m.layers

/-- The tokens of a run, in the order of the trace: each the batch it is in and
its place there. -/
def tokens (bs : List Batch) : List (Batch × Nat) :=
  bs.flatMap fun b => (List.range b.n).map fun t => (b, t)

@[simp] theorem tokens_append (bs : List Batch) (b : Batch) :
    tokens (bs ++ [b]) = tokens bs ++ (List.range b.n).map fun t => (b, t) := by
  simp [tokens]

theorem mem_tokens {bs : List Batch} {b : Batch} {t : Nat} :
    (b, t) ∈ tokens bs ↔ b ∈ bs ∧ t < b.n := by
  simp only [tokens, List.mem_flatMap, List.mem_map, List.mem_range]
  constructor
  · rintro ⟨b', listed, t', inside, same⟩
    cases same
    exact ⟨listed, inside⟩
  · rintro ⟨listed, inside⟩
    exact ⟨b, listed, t, inside, rfl⟩

/-! ## The callback -/

theorem evalCb_topk {ctx : TraceCtx} {t : Tensor} {il : Nat} (named : t.name = .topk il)
    (int : t.type = .i32) :
    evalCb ctx t =
      { ctx with
        batch := ctx.batch.modify il fun lr =>
          { lr with ids := entries (t.ne 1) (t.ne 0) t.id, nTokens := t.ne 1 }
        topK := if ctx.topK = 0 then t.ne 0 else ctx.topK } := by
  simp [evalCb, named, int]

/-- Weights change neither the ids nor the number of tokens of a layer. -/
theorem evalCb_weights (ctx : TraceCtx) {t : Tensor} {rank il : Nat}
    (named : t.name = .weights rank il) :
    evalCb ctx t = ctx ∨ ∃ w ranks, evalCb ctx t =
      { ctx with
        batch := ctx.batch.modify il fun lr => { lr with w := w, hasW := true }
        wPriority := ranks } := by
  simp only [evalCb, named]
  split
  · exact Or.inl rfl
  · split
    · exact Or.inl rfl
    · split
      · exact Or.inl rfl
      · exact Or.inr ⟨_, _, rfl⟩

theorem evalCb_other (ctx : TraceCtx) {t : Tensor} (named : t.name = .other) :
    evalCb ctx t = ctx := by
  simp [evalCb, named]

theorem evalCb_frame (ctx : TraceCtx) (t : Tensor) :
    (evalCb ctx t).out = ctx.out ∧ (evalCb ctx t).nTokenWritten = ctx.nTokenWritten := by
  cases named : t.name with
  | topk il =>
      simp only [evalCb, named]
      split <;> exact ⟨rfl, rfl⟩
  | weights rank il =>
      rcases evalCb_weights ctx named with same | ⟨w, ranks, changed⟩
      · rw [same]
        exact ⟨rfl, rfl⟩
      · rw [changed]
        exact ⟨rfl, rfl⟩
  | other =>
      rw [evalCb_other ctx named]
      exact ⟨rfl, rfl⟩

def LayerRouting.Holds (lr : LayerRouting) (t : Tensor) : Prop :=
  lr.nTokens = t.ne 1 ∧ lr.ids = entries (t.ne 1) (t.ne 0) t.id

/-- The state within a batch of which the callback has got `seen`. -/
structure Gathered (m : MoeModel) (start : TraceCtx) (seen : List Tensor) (ctx : TraceCtx) :
    Prop where
  sorted : ctx.batch.Sorted
  keys : ∀ il lr, (il, lr) ∈ ctx.batch → il ∈ m.layers
  routed : ∀ t ∈ seen, ∀ il, t.name = .topk il → ∃ lr, ctx.batch.find il = some lr ∧ lr.Holds t
  width : ctx.topK = 0 ∨ ctx.topK = m.topK
  known : start.topK = m.topK ∨ (∃ t ∈ seen, ∃ il, t.name = .topk il) → ctx.topK = m.topK
  frame : ctx.out = start.out ∧ ctx.nTokenWritten = start.nTokenWritten

section Gathering

variable {m : MoeModel} {start ctx : TraceCtx} {seen : List Tensor} {t : Tensor} {il rank : Nat}

theorem Gathered.keys_modify (gathered : Gathered m start seen ctx) (layer : il ∈ m.layers)
    (f : LayerRouting → LayerRouting) :
    ∀ il' lr, (il', lr) ∈ ctx.batch.modify il f → il' ∈ m.layers := by
  intro il' lr member
  rcases OrderedMap.modify_key member with same | ⟨v, old⟩
  · rw [show il' = il from same]
    exact layer
  · exact gathered.keys il' v old

theorem Gathered.frame_step (gathered : Gathered m start seen ctx) (t : Tensor) :
    (evalCb ctx t).out = start.out ∧ (evalCb ctx t).nTokenWritten = start.nTokenWritten :=
  ⟨(evalCb_frame ctx t).1.trans gathered.frame.1, (evalCb_frame ctx t).2.trans gathered.frame.2⟩

theorem Gathered.topk (gathered : Gathered m start seen ctx) (layer : il ∈ m.layers)
    (named : t.name = .topk il) (int : t.type = .i32) (wide : t.ne 0 = m.topK)
    (fresh : ∀ t' ∈ seen, t'.name ≠ .topk il) :
    Gathered m start (seen ++ [t]) (evalCb ctx t) := by
  have sets : (evalCb ctx t).topK = m.topK := by
    rw [evalCb_topk named int, wide]
    rcases gathered.width with none | some
    · exact if_pos none
    · simp [some]
  refine ⟨?_, ?_, ?_, Or.inr sets, fun _ => sets, gathered.frame_step t⟩
  · rw [evalCb_topk named int]
    exact gathered.sorted.modify
  · rw [evalCb_topk named int]
    exact gathered.keys_modify layer _
  · intro t' member il' named'
    rw [evalCb_topk named int]
    dsimp only
    rw [OrderedMap.find_modify gathered.sorted]
    rcases List.mem_append.mp member with old | new
    · have different : il' ≠ il := by
        rintro rfl
        exact fresh t' old named'
      rw [if_neg different]
      exact gathered.routed t' old il' named'
    · rw [List.mem_singleton.mp new] at named' ⊢
      rw [named] at named'
      cases named'
      rw [if_pos rfl]
      exact ⟨_, rfl, rfl, rfl⟩

theorem Gathered.skip (gathered : Gathered m start seen ctx)
    (unrouted : ∀ il, t.name ≠ .topk il) : Gathered m start (seen ++ [t]) ctx where
  sorted := gathered.sorted
  keys := gathered.keys
  routed := by
    intro t' member il named
    rcases List.mem_append.mp member with old | new
    · exact gathered.routed t' old il named
    · rw [List.mem_singleton.mp new] at named
      exact absurd named (unrouted il)
  width := gathered.width
  known := by
    rintro (before | ⟨t', member, il, named⟩)
    · exact gathered.known (Or.inl before)
    · rcases List.mem_append.mp member with old | new
      · exact gathered.known (Or.inr ⟨t', old, il, named⟩)
      · rw [List.mem_singleton.mp new] at named
        exact absurd named (unrouted il)
  frame := gathered.frame

theorem Gathered.weights (gathered : Gathered m start seen ctx) (layer : il ∈ m.layers)
    (w : List Nat) (ranks : OrderedMap Nat Nat) :
    Gathered m start seen
      { ctx with
        batch := ctx.batch.modify il fun lr => { lr with w := w, hasW := true }
        wPriority := ranks } where
  sorted := gathered.sorted.modify
  keys := gathered.keys_modify layer _
  routed := by
    intro t' member il' named
    obtain ⟨lr, found, holds⟩ := gathered.routed t' member il' named
    dsimp only
    rw [OrderedMap.find_modify gathered.sorted]
    split
    · rename_i same
      subst same
      rw [OrderedMap.get_of_find found]
      exact ⟨_, rfl, holds⟩
    · exact ⟨lr, found, holds⟩
  width := gathered.width
  known := gathered.known
  frame := gathered.frame

theorem Gathered.step (gathered : Gathered m start seen ctx)
    (routing : ∀ il, t.name = .topk il → t.type = .i32 ∧ t.ne 0 = m.topK ∧ il ∈ m.layers ∧
      ∀ t' ∈ seen, t'.name ≠ .topk il)
    (weighted : ∀ rank il, t.name = .weights rank il → il ∈ m.layers) :
    Gathered m start (seen ++ [t]) (evalCb ctx t) := by
  cases named : t.name with
  | topk il =>
      obtain ⟨int, wide, layer, fresh⟩ := routing il named
      exact gathered.topk layer named int wide fresh
  | weights rank il =>
      have skipped : Gathered m start (seen ++ [t]) ctx :=
        gathered.skip fun il' named' => by
          rw [named] at named'
          cases named'
      rcases evalCb_weights ctx named with same | ⟨w, ranks, changed⟩
      · rw [same]
        exact skipped
      · rw [changed]
        exact skipped.weights (weighted rank il named) w ranks
  | other =>
      rw [evalCb_other ctx named]
      exact gathered.skip fun il' named' => by
        rw [named] at named'
        cases named'

end Gathering

section Batches

variable {m : MoeModel} {b : Batch}

theorem Batch.Of.layer (wellFormed : b.Of m) {t : Tensor} {il : Nat} (member : t ∈ b.tensors)
    (named : t.name = .topk il) : il ∈ m.layers :=
  wellFormed.once.mem_iff.mp
    (List.mem_filterMap.mpr ⟨t, member, Tensor.routes_eq_some.mpr named⟩)

theorem Batch.Of.exists_routing (wellFormed : b.Of m) {il : Nat} (layer : il ∈ m.layers) :
    ∃ t ∈ b.tensors, t.name = .topk il := by
  obtain ⟨t, member, routes⟩ := List.mem_filterMap.mp (wellFormed.once.mem_iff.mpr layer)
  exact ⟨t, member, Tensor.routes_eq_some.mp routes⟩

theorem MoeModel.nodup (m : MoeModel) : m.layers.Nodup := m.ascending.imp ne_of_lt

theorem gathered_foldl (wellFormed : b.Of m) {start : TraceCtx} (empty : start.batch = [])
    (width : start.topK = 0 ∨ start.topK = m.topK) :
    Gathered m start b.tensors (b.tensors.foldl evalCb start) := by
  have distinct := wellFormed.once.nodup_iff.mpr m.nodup
  have general : ∀ seen later, b.tensors = seen ++ later →
      Gathered m start seen (seen.foldl evalCb start) := by
    intro seen
    induction seen using List.reverseRecOn with
    | nil =>
        intro later _
        refine ⟨?_, ?_, (fun _ member => nomatch member), width, ?_, rfl, rfl⟩
        · rw [List.foldl_nil, empty]
          exact List.Pairwise.nil
        · rw [List.foldl_nil, empty]
          exact fun _ _ member => nomatch member
        · rintro (before | ⟨t, member, _⟩)
          · exact before
          · cases member
    | append_singleton seen t ih =>
        intro later split
        have member : t ∈ b.tensors := by simp [split]
        rw [List.foldl_append]
        apply (ih ([t] ++ later) (by rw [split, List.append_assoc])).step
        · intro il named
          have routing := wellFormed.routing t member il named
          refine ⟨routing.1, routing.2.1, wellFormed.layer member named, ?_⟩
          -- a second routing tensor of the layer would repeat its number
          intro t' earlier named'
          rw [split, List.append_assoc, List.filterMap_append, List.nodup_append] at distinct
          apply distinct.2.2 il _ il _ rfl
          · exact List.mem_filterMap.mpr ⟨t', earlier, Tensor.routes_eq_some.mpr named'⟩
          · exact List.mem_filterMap.mpr
              ⟨t, List.mem_cons_self, Tensor.routes_eq_some.mpr named⟩
        · exact fun rank il named => wellFormed.weighted t member rank il named
  exact general b.tensors [] (List.append_nil _).symm

theorem Gathered.layers {start ctx : TraceCtx} (gathered : Gathered m start b.tensors ctx)
    (wellFormed : b.Of m) : ctx.batch.map Prod.fst = m.layers := by
  apply List.Pairwise.eq_of_mem_iff (r := (· < ·)) (List.pairwise_map.mpr gathered.sorted)
    m.ascending
  intro il
  constructor
  · intro member
    obtain ⟨⟨il', lr⟩, listed, rfl⟩ := List.mem_map.mp member
    exact gathered.keys il' lr listed
  · intro layer
    obtain ⟨t, member, named⟩ := wellFormed.exists_routing layer
    obtain ⟨lr, found, -⟩ := gathered.routed t member il named
    exact List.mem_map.mpr ⟨(il, lr), OrderedMap.find_mem found, rfl⟩

end Batches

/-! ## The records -/

theorem part_entries {α : Type} {nt t : Nat} (tk : Nat) (entry : Nat → Nat → α) (below : t < nt) :
    part tk t (entries nt tk entry) = (List.range tk).map (entry t) := by
  have uniform : ∀ b ∈ (List.range nt).map fun j => (List.range tk).map (entry j),
      b.length = tk := by
    intro b member
    obtain ⟨j, -, rfl⟩ := List.mem_map.mp member
    simp
  rw [entries, List.flatMap_def, part_flatten uniform]
  simp [below]

/-- What the trace has for layer `il` of token `t` of a batch. -/
def RecordOf (m : MoeModel) (b : Batch) (t il : Nat) (record : List Nat) : Prop :=
  ∃ τ ∈ b.tensors, τ.name = .topk il ∧
    ((τ.ne 1 ≤ t ∧ record = []) ∨
      (t < τ.ne 1 ∧ ∃ ids ws, record = ids ++ ws ∧ ids.map Int.ofNat = τ.selected t ∧
        ids.length = m.topK ∧ ws.length = m.topK))

section Records

variable {m : MoeModel} {b : Batch} (f16 : Nat → Nat)

theorem record_lt (lr : LayerRouting) (tk t : Nat) : ∀ x ∈ lr.record f16 tk t, x < 2 ^ 16 := by
  intro x member
  simp only [LayerRouting.record] at member
  split at member
  · cases member
  · rcases List.mem_append.mp member with id | weight
    · obtain ⟨k, -, rfl⟩ := List.mem_map.mp id
      omega
    · obtain ⟨k, -, rfl⟩ := List.mem_map.mp weight
      exact Nat.mod_lt _ (by decide)

theorem recordOf_record (wellFormed : b.Of m) {τ : Tensor} {il : Nat} {lr : LayerRouting}
    (member : τ ∈ b.tensors) (named : τ.name = .topk il) (holds : lr.Holds τ) (t : Nat) :
    RecordOf m b t il (lr.record f16 m.topK t) := by
  obtain ⟨-, wide, range⟩ := wellFormed.routing τ member il named
  refine ⟨τ, member, named, ?_⟩
  simp only [LayerRouting.record]
  rw [holds.1]
  by_cases covered : t < τ.ne 1
  · refine Or.inr ⟨covered, _, _, if_neg (not_le.mpr covered), ?_, by simp, by simp⟩
    rw [List.map_map, Tensor.selected, wide]
    apply List.map_congr_left
    intro k inside
    rw [List.mem_range] at inside
    have entry : lr.ids.getD (t * m.topK + k) 0 = τ.id t k := by
      rw [holds.2, wide, List.getD_eq_getElem?_getD, ← getElem?_part inside,
        part_entries _ _ covered]
      simp [inside]
    have bounds := range t covered k (by rw [wide]; exact inside)
    have few := m.few
    rw [Function.comp_apply, entry]
    simp only [Int.ofNat_eq_natCast]
    omega
  · exact Or.inl ⟨not_lt.mp covered, if_pos (not_lt.mp covered)⟩

theorem Gathered.records {start ctx : TraceCtx} (gathered : Gathered m start b.tensors ctx)
    (wellFormed : b.Of m) (t : Nat) :
    List.Forall₂ (RecordOf m b t) m.layers
      (ctx.batch.map fun layer => layer.2.record f16 m.topK t) := by
  rw [← gathered.layers wellFormed, List.forall₂_map_left_iff, List.forall₂_map_right_iff,
    List.forall₂_same]
  rintro ⟨il, lr⟩ listed
  obtain ⟨τ, member, named⟩ := wellFormed.exists_routing (gathered.keys il lr listed)
  obtain ⟨lr', found, holds⟩ := gathered.routed τ member il named
  rw [gathered.sorted.find_of_mem listed] at found
  cases found
  exact recordOf_record f16 wellFormed member named holds t

/-! ## The run -/

/-- The state between two batches, after the batches `bs`. -/
structure Written (m : MoeModel) (bs : List Batch) (s : TraceCtx × Nat) : Prop where
  records : ∃ records : List (List (List Nat)),
    s.1.out = putWords records.flatten.flatten ∧
      (∀ x ∈ records.flatten.flatten, x < 2 ^ 16) ∧
      List.Forall₂ (fun p rs => List.Forall₂ (RecordOf m p.1 p.2) m.layers rs) (tokens bs) records
  count : s.1.nTokenWritten = (tokens bs).length % 2 ^ 64
  empty : s.1.batch = []
  topK : s.1.topK = if bs = [] then 0 else m.topK
  nMoe : s.2 = if bs = [] then 0 else m.layers.length

theorem written_nil (m : MoeModel) : Written m [] ({}, 0) where
  records := ⟨[], rfl, (fun _ member => nomatch member), List.Forall₂.nil⟩
  count := rfl
  empty := rfl
  topK := rfl
  nMoe := rfl

@[simp] theorem putWords_append (ws ws' : List Nat) :
    putWords (ws ++ ws') = putWords ws ++ putWords ws' :=
  List.flatMap_append

def flushed (ctx : TraceCtx) (nTokens : Nat) : List (List (List Nat)) :=
  (List.range nTokens).map fun t =>
    ctx.batch.map fun layer => layer.2.record f16 ctx.topK t

theorem flushBatch_out {ctx : TraceCtx} (some : ctx.batch ≠ []) (nTokens : Nat) :
    flushBatch f16 ctx nTokens =
      { ctx with
        out := ctx.out ++ putWords (flushed f16 ctx nTokens).flatten.flatten
        nTokenWritten := (ctx.nTokenWritten + nTokens) % 2 ^ 64
        batch := []
        wPriority := [] } := by
  rw [flushBatch, if_neg some]
  simp [flushed, putWords, List.flatMap_def, List.map_flatten, List.flatten_flatten,
    Function.comp_def]

theorem flushed_lt (ctx : TraceCtx) (nTokens : Nat) :
    ∀ x ∈ (flushed f16 ctx nTokens).flatten.flatten, x < 2 ^ 16 := by
  intro x member
  obtain ⟨record, inRecords, inside⟩ := List.mem_flatten.mp member
  obtain ⟨rs, inRows, listed⟩ := List.mem_flatten.mp inRecords
  obtain ⟨t, -, rfl⟩ := List.mem_map.mp inRows
  obtain ⟨layer, -, rfl⟩ := List.mem_map.mp listed
  exact record_lt f16 layer.2 ctx.topK t x inside

section Step

variable {bs : List Batch} {s : TraceCtx × Nat}

theorem Written.gathered (written : Written m bs s) (wellFormed : b.Of m) :
    Gathered m s.1 b.tensors (b.tensors.foldl evalCb s.1) := by
  refine gathered_foldl wellFormed written.empty ?_
  rw [written.topK]
  split
  · exact Or.inl rfl
  · exact Or.inr rfl

theorem Written.step (layers : m.layers ≠ []) (written : Written m bs s) (wellFormed : b.Of m) :
    Written m (bs ++ [b]) (captureBatch f16 s b) := by
  obtain ⟨records, out, small, agree⟩ := written.records
  have gathered := written.gathered wellFormed
  have length := congrArg List.length (gathered.layers wellFormed)
  rw [List.length_map] at length
  have topK : (b.tensors.foldl evalCb s.1).topK = m.topK := by
    obtain ⟨il, layer⟩ := List.exists_mem_of_ne_nil _ layers
    obtain ⟨t, member, named⟩ := wellFormed.exists_routing layer
    exact gathered.known (Or.inr ⟨t, member, il, named⟩)
  have some : (b.tensors.foldl evalCb s.1).batch ≠ [] := by
    intro none
    rw [none] at length
    exact layers (List.eq_nil_of_length_eq_zero length.symm)
  have more : bs ++ [b] ≠ [] := by simp
  rw [captureBatch, flushBatch_out f16 some, length]
  generalize b.tensors.foldl evalCb s.1 = ctx at *
  refine ⟨⟨records ++ flushed f16 ctx b.n, ?_, ?_, ?_⟩, ?_, rfl, ?_, ?_⟩
  · rw [List.flatten_append, List.flatten_append, putWords_append, ← out, ← gathered.frame.1]
  · rw [List.flatten_append, List.flatten_append]
    exact List.forall_mem_append.mpr ⟨small, flushed_lt f16 ctx b.n⟩
  · rw [tokens_append]
    refine List.rel_append agree ?_
    rw [flushed, topK, List.forall₂_map_left_iff, List.forall₂_map_right_iff, List.forall₂_same]
    exact fun t _ => gathered.records f16 wellFormed t
  · rw [tokens_append, List.length_append, List.length_map, List.length_range]
    dsimp only
    rw [gathered.frame.2, written.count, Nat.mod_add_mod]
  · rw [if_neg more]
    exact topK
  · rw [if_neg more, written.nMoe]
    by_cases first : bs = []
    · rw [if_pos first, if_pos rfl]
    · rw [if_neg first]
      exact ite_self _

end Step

theorem capture_written (layers : m.layers ≠ []) {bs : List Batch}
    (captured : ∀ b ∈ bs, b.Of m) : Written m bs (capture f16 bs) := by
  induction bs using List.reverseRecOn with
  | nil => exact written_nil m
  | append_singleton bs b ih =>
      obtain ⟨before, last⟩ := List.forall_mem_append.mp captured
      rw [capture, List.foldl_append]
      exact (ih before).step f16 layers (last b List.mem_cons_self)

theorem capture_none (layers : m.layers = []) {bs : List Batch} (captured : ∀ b ∈ bs, b.Of m) :
    (capture f16 bs).1.batch = [] ∧
      ((capture f16 bs).1.topK = 0 ∨ (capture f16 bs).1.topK = m.topK) ∧
      (capture f16 bs).2 = 0 ∧ (capture f16 bs).1.out = [] := by
  induction bs using List.reverseRecOn with
  | nil => exact ⟨rfl, Or.inl rfl, rfl, rfl⟩
  | append_singleton bs b ih =>
      obtain ⟨before, last⟩ := List.forall_mem_append.mp captured
      obtain ⟨empty, width, count, out⟩ := ih before
      have gathered := gathered_foldl (last b List.mem_cons_self) empty width
      have none : (b.tensors.foldl evalCb (capture f16 bs).1).batch = [] := by
        apply List.eq_nil_iff_forall_not_mem.mpr
        rintro ⟨il, lr⟩ member
        have layer := gathered.keys il lr member
        rw [layers] at layer
        cases layer
      have step : capture f16 (bs ++ [b]) = captureBatch f16 (capture f16 bs) b := by
        rw [capture, List.foldl_append]
        rfl
      rw [step, captureBatch, flushBatch, if_pos none, none, count]
      exact ⟨rfl, gathered.width, rfl, gathered.frame.1.trans out⟩

end Records

end MoeStream.ExpertTrace
