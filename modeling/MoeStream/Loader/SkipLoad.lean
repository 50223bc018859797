import MoeStream.Loader.DenseSubstitutes
import MoeStream.Loader.Experts

/-!
# What the loader leaves unread

Embedding of the patches of `create_tensor` and `load_all_data`.  A tensor is
allocated as a slab, as a one-row stub or whole; afterwards it is read from the
file unless `skip_load` knows its name.
-/

set_option autoImplicit false

namespace MoeStream

open MoeStream.Dense

structure Tensor where
  name : List Char
  ne0 : Nat
  ne1 : Nat
  ne2 : Nat
  ne3 : Nat
  nbytes : Nat
  offs : Nat
  fileIdx : Nat
  type : Int

namespace Tensor

/-- `ggml_n_dims`. -/
def dims (t : Tensor) : Nat :=
  if 1 < t.ne3 then 4 else if 1 < t.ne2 then 3 else if 1 < t.ne1 then 2 else 1

/-- What `slab_slots` and `register_slab` are given. -/
def expert (t : Tensor) : ExpertTensor := ⟨t.name, t.dims, t.ne2, t.offs, t.nbytes, t.fileIdx⟩

/-- What `dense_claim` and `register_dense` are given. -/
def dense (t : Tensor) : DenseTensor :=
  ⟨t.name, t.dims, t.nbytes, t.offs, t.fileIdx, t.type, t.ne0, t.ne1⟩

end Tensor

/-- What `create_tensor` allocates. -/
inductive Allocation where
  | slab (slots : Nat)
  | stub
  | whole

def Allocation.isReduced : Allocation → Bool
  | .slab _ => true
  | .stub => true
  | .whole => false

structure Loading where
  layers : Layers := []
  dense : Dense.Loaded := {}

/-- The configuration; `enabled()` is `dense.enabled`. -/
structure Loader where
  sizing : Sizing
  dense : Setting

namespace Loader

variable (cfg : Loader)

/-- `n_slot > 0 && ggml_n_dims(meta) == 3`. -/
def isSlab (t : Tensor) : Bool := cfg.dense.enabled && reduced cfg.sizing t.expert

/-- The patch of `create_tensor`. -/
def create (s : Loading) (t : Tensor) : Loading × Allocation :=
  if cfg.isSlab t then
    ({ s with layers := registerSlab s.layers t.expert }, .slab (slabSlots cfg.sizing t.expert))
  else
    ({ s with dense := createDense cfg.dense s.dense t.dense },
      if (cfg.dense.denseClaim s.dense.claims t.dense).2 then .stub else .whole)

/-- Creating the tensors of a model, with what each was allocated as. -/
def load (ts : List Tensor) : Loading × List (Tensor × Allocation) :=
  ts.foldl
    (fun r t => ((cfg.create r.1 t).1, r.2 ++ [(t, (cfg.create r.1 t).2)])) ({}, [])

/-- `skip_load`, once all tensors are created. -/
def skipLoad (s : Loading) (name : List Char) : Bool :=
  cfg.dense.enabled && ((parseName name).isSome || s.dense.claims.claimed.contains name)

/-! ## What is allocated -/

/-- The tensors `dense_claim` is asked about. -/
def offered (ts : List Tensor) : List DenseTensor :=
  (ts.filter fun t => !cfg.isSlab t).map Tensor.dense

/-- The weight is streamed under the split that the tensors `ts` decide. -/
def streamed (ts : List Tensor) (t : Tensor) : Bool :=
  (cfg.dense.streams (cfg.dense.split (cfg.offered ts)) t.dense).isSome

/-- The allocation under a split `d`. -/
def allocation (d : Claims) (t : Tensor) : Allocation :=
  if cfg.isSlab t then .slab (slabSlots cfg.sizing t.expert)
  else if (cfg.dense.streams d t.dense).isSome then .stub else .whole

end Loader

theorem Dense.Follows.claim {z : Setting} {d : Claims} {ts : List DenseTensor} {s : Dense.Loaded}
    {t : DenseTensor} (follows : Follows z d ts s)
    (decides : ∀ t₀, (ts ++ [t]).find? z.candidate = some t₀ → d = z.decideSplit t₀.nbytes {}) :
    (z.denseClaim s.claims t).2 = (z.streams d t).isSome := by
  cases candidate : z.candidate t with
  | false =>
      rw [denseClaim_other candidate, streams_other candidate]
      rfl
  | true =>
      rw [denseClaim_candidate candidate (follows.decided candidate decides)]
      cases z.streams d t with
      | none => rfl
      | some place => rfl

variable {cfg : Loader} {ts : List Tensor} {t : Tensor}

theorem offered_append : cfg.offered (ts ++ [t]) =
    if cfg.isSlab t then cfg.offered ts else cfg.offered ts ++ [t.dense] := by
  simp only [Loader.offered]
  cases slab : cfg.isSlab t <;> simp [slab]

variable (cfg) in
theorem load_follows {d : Claims} (ts : List Tensor)
    (decides : ∀ t₀, (cfg.offered ts).find? cfg.dense.candidate = some t₀ →
      d = cfg.dense.decideSplit t₀.nbytes {}) :
    Follows cfg.dense d (cfg.offered ts) (cfg.load ts).1.dense ∧
      (cfg.load ts).2 = ts.map fun t => (t, cfg.allocation d t) := by
  induction ts using List.reverseRecOn with
  | nil => exact ⟨loaded_follows cfg.dense d [] decides, rfl⟩
  | append_singleton ts t ih =>
      have step : cfg.load (ts ++ [t]) = ((cfg.create (cfg.load ts).1 t).1,
          (cfg.load ts).2 ++ [(t, (cfg.create (cfg.load ts).1 t).2)]) := by
        simp only [Loader.load]
        rw [List.foldl_append]
        rfl
      rw [offered_append] at decides ⊢
      rw [step, List.map_append]
      simp only [Loader.create]
      cases slab : cfg.isSlab t with
      | true =>
          rw [slab, if_pos rfl] at decides
          obtain ⟨follows, allocated⟩ := ih decides
          simp only [if_true, allocated, List.map_cons, List.map_nil, Loader.allocation, slab]
          exact ⟨follows, trivial⟩
      | false =>
          rw [slab, if_neg Bool.false_ne_true] at decides
          obtain ⟨follows, allocated⟩ := ih fun t₀ found => by
            apply decides
            rw [List.find?_append, found, Option.some_or]
          simp only [Bool.false_eq_true, if_false, allocated, List.map_cons, List.map_nil,
            Loader.allocation, slab, follows.claim decides]
          exact ⟨follows.create decides, trivial⟩

theorem split_decides {z : Setting} {ts : List DenseTensor} {t₀ : DenseTensor}
    (found : ts.find? z.candidate = some t₀) : z.split ts = z.decideSplit t₀.nbytes {} := by
  simp only [Setting.split]
  rw [found]

/-! ## Names -/

/-- The end of a dense weight's name holds no role of an expert tensor. -/
theorem contains_dense {rest : List Char}
    (dense : rest ∈ [".ffn_gate.weight".toList, ".ffn_up.weight".toList,
      ".ffn_down.weight".toList]) :
    contains ".ffn_gate_exps.weight".toList rest = false ∧
      contains ".ffn_up_exps.weight".toList rest = false ∧
      contains ".ffn_down_exps.weight".toList rest = false := by
  simp only [List.mem_cons, List.not_mem_nil, or_false] at dense
  rcases dense with rfl | rfl | rfl <;> decide

theorem parseDenseAny_expert {name : List Char} (expert : (parseName name).isSome = true)
    (n : Nat) : parseDenseAny name n = none := by
  simp only [parseName] at expert
  simp only [parseDenseAny]
  cases parsed : parseLayer name with
  | none => rfl
  | some place =>
      obtain ⟨il, rest⟩ := place
      rw [parsed] at expert
      simp only [Option.bind_some] at expert ⊢
      have other : rest ∉ [".ffn_gate.weight".toList, ".ffn_up.weight".toList,
          ".ffn_down.weight".toList] := by
        intro dense
        obtain ⟨gate, up, down⟩ := contains_dense dense
        simp only [gate, up, down, Bool.false_eq_true, if_false] at expert
        cases expert
      simp only [List.mem_cons, List.not_mem_nil, or_false, not_or] at other
      rw [if_neg other.1, if_neg other.2.1, if_neg other.2.2]
      split <;> rfl

variable (cfg) in
theorem streams_expert (d : Claims) (expert : (parseName t.name).isSome = true) :
    cfg.dense.streams d t.dense = none := by
  apply streams_other
  simp only [Setting.candidate]
  have none : parseDenseAny t.dense.name t.dense.nbytes = none :=
    parseDenseAny_expert expert t.nbytes
  rw [none]
  exact Bool.and_false _

theorem isSlab_iff : cfg.isSlab t = true ↔ cfg.dense.enabled = true ∧
    (parseName t.name).isSome = true ∧ 1 < t.ne2 ∧ t.ne3 ≤ 1 := by
  have dims : t.dims = 3 ↔ 1 < t.ne2 ∧ t.ne3 ≤ 1 := by
    simp only [Tensor.dims]
    split
    · omega
    · split
      · omega
      · split <;> omega
  simp only [Loader.isSlab, Bool.and_eq_true, reduced, decide_eq_true_eq, slabSlots, Tensor.expert,
    dims]
  apply and_congr_right
  intro _
  cases parseName t.name with
  | none => simp
  | some place =>
      by_cases few : t.ne2 ≤ 1
      · simp only [few, if_true]
        omega
      · simp only [few, if_false, Option.isSome_some, Nat.succ_pos, true_and]

/-! ## What is skipped -/

/-- An expert tensor has several experts in three dimensions, and another tensor
that has the name of a streamed weight is streamed as well. -/
def Consistent (cfg : Loader) (ts : List Tensor) (t : Tensor) : Prop :=
  cfg.dense.enabled = true →
    ((parseName t.name).isSome = true → 1 < t.ne2 ∧ t.ne3 ≤ 1) ∧
    ((∃ t' ∈ ts, t'.name = t.name ∧ cfg.streamed ts t' = true) → cfg.streamed ts t = true)

variable (cfg ts) in
theorem mem_claimed_iff (name : List Char) : name ∈ (cfg.load ts).1.dense.claims.claimed ↔
    ∃ t ∈ ts, t.name = name ∧ cfg.streamed ts t = true := by
  have claimed := (load_follows cfg ts fun _ => split_decides).1.claimed
  rw [claimed]
  simp only [List.mem_map, List.mem_filter, Loader.offered, Loader.streamed]
  constructor
  · rintro ⟨dense, ⟨⟨t, ⟨member, -⟩, rfl⟩, streams⟩, rfl⟩
    exact ⟨t, member, rfl, streams⟩
  · rintro ⟨t, member, rfl, streams⟩
    refine ⟨t.dense, ⟨⟨t, ⟨member, ?_⟩, rfl⟩, streams⟩, rfl⟩
    -- a streamed weight has the name of no expert tensor
    cases slab : cfg.isSlab t with
    | false => rfl
    | true =>
        rw [streams_expert _ _ (isSlab_iff.mp slab).2.1] at streams
        cases streams

theorem streamed_enabled (streams : cfg.streamed ts t = true) : cfg.dense.enabled = true := by
  obtain ⟨place, found⟩ := Option.isSome_iff_exists.mp streams
  have candidate := (streams_place found).1
  simp only [Setting.candidate, Bool.and_eq_true, decide_eq_true_eq] at candidate
  exact candidate.1.1

/-- A tensor is left unread exactly if it was allocated in reduced form. -/
theorem skipped_iff {a : Allocation} (created : (t, a) ∈ (cfg.load ts).2) :
    cfg.skipLoad (cfg.load ts).1 t.name = a.isReduced ↔ Consistent cfg ts t := by
  have allocated := (load_follows cfg ts fun _ => split_decides).2
  rw [allocated] at created
  obtain ⟨t', member, same⟩ := List.mem_map.mp created
  cases same
  have claimed := mem_claimed_iff cfg ts t.name
  have own : cfg.streamed ts t = true → ∃ t' ∈ ts, t'.name = t.name ∧ cfg.streamed ts t' = true :=
    fun streams => ⟨t, member, rfl, streams⟩
  simp only [Consistent, Loader.skipLoad, Loader.allocation]
  cases enabled : cfg.dense.enabled with
  | false =>
      have kept : cfg.streamed ts t = false := by
        apply Bool.eq_false_iff.mpr
        intro streams
        rw [streamed_enabled streams] at enabled
        cases enabled
      have whole : cfg.isSlab t = false := by
        simp only [Loader.isSlab]
        rw [enabled]
        rfl
      simp only [Loader.streamed] at kept
      simp [whole, kept, Allocation.isReduced]
  | true =>
      cases expert : (parseName t.name).isSome with
      | true =>
          have none := streams_expert cfg (cfg.dense.split (cfg.offered ts)) expert
          have lone : ¬∃ t' ∈ ts, t'.name = t.name ∧ cfg.streamed ts t' = true := by
            rintro ⟨t', -, name, streams⟩
            simp only [Loader.streamed] at streams
            rw [streams_expert _ _ (by rw [name]; exact expert)] at streams
            cases streams
          have slab : cfg.isSlab t = true ↔ _ := isSlab_iff
          simp only [enabled, expert, true_and] at slab
          simp only [none, lone, false_implies, and_true, true_implies, ← slab]
          cases cfg.isSlab t <;> simp [Allocation.isReduced]
      | false =>
          have whole : cfg.isSlab t = false := by
            apply Bool.eq_false_iff.mpr
            intro slab
            rw [(isSlab_iff.mp slab).2.1] at expert
            cases expert
          simp only [whole, Bool.false_eq_true, if_false, false_implies, true_and, true_implies,
            Bool.true_and, Bool.false_or, ← claimed] at own ⊢
          simp only [Loader.streamed] at own ⊢
          generalize (cfg.dense.streams (cfg.dense.split (cfg.offered ts)) t.dense).isSome = streams
            at own ⊢
          cases streams with
          | false => simp [Allocation.isReduced]
          | true => simp [Allocation.isReduced, own rfl]

/-! ## An expert tensor with one expert -/

def plainLoader : Loader where
  sizing := { nExpert := 2, topK := 1, fraction := .fixed 1 }
  dense :=
    { enabled := true, auto := false, frac := 1, nbuf := 2, threads := 1, nExpert := 1, nLayer := 1
      scanTotal := 0, fileGib := 1, deviceMem := none, reserve := 2, buffered := Nat.two_pos }

def downTensor (experts : Nat) : Tensor :=
  ⟨"blk.0.ffn_down_exps.weight".toList, 64, 32, experts, 1, 4096 * experts, 0, 0, 1⟩

/-- The tensor is allocated whole and is not read. -/
theorem single_unread : (downTensor 1, .whole) ∈ (plainLoader.load [downTensor 1]).2 ∧
    plainLoader.skipLoad (plainLoader.load [downTensor 1]).1 (downTensor 1).name = true ∧
    Allocation.whole.isReduced = false := by
  have name : (parseName (downTensor 1).name).isSome = true := by decide
  have whole : plainLoader.isSlab (downTensor 1) = false := by
    apply Bool.eq_false_iff.mpr
    intro slab
    exact absurd (isSlab_iff.mp slab).2.2.1 (Nat.lt_irrefl 1)
  have streams := streams_expert plainLoader
    (plainLoader.dense.split (plainLoader.offered [downTensor 1])) name
  refine ⟨?_, ?_, rfl⟩
  · rw [(load_follows plainLoader [downTensor 1] fun _ => split_decides).2]
    simp [Loader.allocation, whole, streams]
  · simp only [Loader.skipLoad]
    rw [name]
    rfl

/-- With two experts it is a slab and is not read. -/
theorem skipped_iff_pair :
    plainLoader.skipLoad (plainLoader.load [downTensor 2]).1 (downTensor 2).name =
      (Allocation.slab (slabSlots plainLoader.sizing (downTensor 2).expert)).isReduced := by
  have slab : plainLoader.isSlab (downTensor 2) = true := by
    apply isSlab_iff.mpr
    decide
  have created : (downTensor 2, Allocation.slab (slabSlots plainLoader.sizing
      (downTensor 2).expert)) ∈ (plainLoader.load [downTensor 2]).2 := by
    rw [(load_follows plainLoader [downTensor 2] fun _ => split_decides).2]
    simp [Loader.allocation, slab]
  apply (skipped_iff created).mpr
  intro _
  refine ⟨fun _ => by decide, ?_⟩
  rintro ⟨t, member, -, streams⟩
  rw [List.mem_singleton.mp member] at streams
  exact streams

end MoeStream
