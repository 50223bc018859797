import MoeStream.Inference.Streamed

/-!
# What a streamed model relies on

The loader promises the sizes and the layers, the router names `top_k` distinct
experts for each token, the configuration is safe, and reads make progress.
From that follows what a call of the remap needs.
-/

set_option autoImplicit false

namespace MoeStream.Inference

open Foundation.FixedWidth

/-- The ids of a batch: each row names `top_k` distinct experts. -/
structure TopK (z : Sizing) (ids : Ids) : Prop where
  columns : ids.ne0 = z.topK
  inside : ∀ j k, j < ids.ne1 → k < ids.ne0 → 0 ≤ ids.at j k ∧ ids.at j k < z.nExpert
  distinct : ∀ j k k', j < ids.ne1 → k < ids.ne0 → k' < ids.ne0 →
    ids.at j k = ids.at j k' → k = k'

/-- What the streamed model relies on.  The null expert is used only when passes
are forced. -/
structure Fit {B X Y : Type} [AddZeroClass Y] (net : Network B X Y) (sys : System)
    (reads : Reads) : Prop where
  product : Product sys.rt sys.sizing.nExpert
  whole : sys.rt.Whole
  unset : sys.rt.sweepTest = 0
  slots : sys.rt.nSlots = sys.sizing.slots
  narrow : sys.sizing.nExpert < 2 ^ 31
  known : 0 < sys.sizing.topK ∧ sys.sizing.topK ≤ sys.sizing.nExpert
  safe : sys.sizing.Safe sys.pfReady
  ubatch : sys.sizing.maxUbatch < 2 ^ 16
  forced : ∀ v ∈ sys.force, v ≤ 8
  shards : sys.arena.shards = sys.rt.shards
  same : ∀ il L, sys.arena.layers il = some L → sys.rt.layers il = some L
  layers : ∀ il ∈ net.layers, ∃ L, sys.rt.remapped il = some L
  arena : sys.pfReady = true → ∀ il ∈ net.layers, (sys.arena.layers il).isSome
  router : ∀ il x, TopK sys.sizing (net.selected il x)
  tokens : sys.pfReady = false → ∀ il x, (net.selected il x).ne1 ≤ sys.sizing.maxUbatch
  null : sys.force.isSome → ∀ il L, sys.rt.layers il = some L → ∀ x n,
    net.ffn il x n (fun role => List.replicate (L.role role).expertBytes 0) = 0
  arenaReads : ∀ pread, reads.arena pread → ∀ il L, sys.rt.layers il = some L →
    ReadsInside sys.rt.shards L pread
  slabReads : ∀ io, reads.slab io → (∀ job, AtMost (io.pread job)) ∧
    ∀ il L, sys.rt.layers il = some L → ReadsInside sys.rt.shards L io.pread
  answers : (∃ pread, reads.arena pread) ∧ ∃ io, reads.slab io

/-! ## Ids -/

theorem TopK.inRange {z : Sizing} {ids : Ids} (topK : TopK z ids) {e : Int}
    (listed : e ∈ ids.list) :
    0 ≤ e ∧ e < z.nExpert := by
  obtain ⟨j, row, listed⟩ := List.mem_flatMap.mp listed
  obtain ⟨k, column, rfl⟩ := List.mem_map.mp listed
  exact topK.inside j k (List.mem_range.mp row) (List.mem_range.mp column)

theorem TopK.count_le {z : Sizing} {ids : Ids} (topK : TopK z ids) (e : Int) :
    ids.list.count e ≤ ids.ne1 := by
  simp only [Ids.list]
  rw [List.count_flatMap]
  have row : ∀ c ∈ (List.range ids.ne1).map (List.count e ∘ fun j =>
      (List.range ids.ne0).map fun k => ids.at j k), c ≤ 1 := by
    intro c member
    obtain ⟨j, listed, rfl⟩ := List.mem_map.mp member
    apply List.nodup_iff_count_le_one.mp
    apply List.Nodup.map_on ?_ List.nodup_range
    intro k column k' column' same
    exact topK.distinct j k k' (List.mem_range.mp listed) (List.mem_range.mp column)
      (List.mem_range.mp column') same
  have total := List.sum_le_card_nsmul _ 1 row
  simpa using total

theorem thresholdFrom_le (fits : Nat → Bool) (turns n : Nat) :
    thresholdFrom fits turns n ≤ n + turns := by
  induction turns generalizing n with
  | zero => exact Nat.le_refl n
  | succ turns ih =>
      have next := ih (n + 1)
      simp only [thresholdFrom]
      split <;> omega

/-! ## Calls -/

variable {B X Y : Type} [AddZeroClass Y] {net : Network B X Y} {sys : System} {reads : Reads}
  (fit : Fit net sys reads)

include fit

theorem Fit.layer {il : Nat} (member : il ∈ net.layers) :
    ∃ L, sys.rt.remapped il = some L ∧ sys.rt.layers il = some L := by
  obtain ⟨L, found⟩ := fit.layers il member
  exact ⟨L, found, remapped_layer found⟩

theorem Fit.limit {il : Nat} {x : X} (member : il ∈ net.layers)
    (path : sys.prefills il (net.selected il x).ne1 = false) :
    (net.selected il x).ne1 ≤ sys.sizing.limit sys.pfReady := by
  cases ready : sys.pfReady with
  | false =>
      have most := fit.tokens ready il x
      simpa [Sizing.limit] using most
  | true =>
      have present := fit.arena ready il member
      simpa [System.prefills, ready, present, Sizing.limit] using path

theorem Fit.limit_lt : sys.sizing.limit sys.pfReady < 2 ^ 16 := by
  have most := fit.ubatch
  have loop : sys.sizing.threshold ≤ 1 + 4095 := thresholdFrom_le _ _ _
  simp only [Sizing.limit]
  split <;> omega

theorem Fit.passes (ids : Ids) : 1 ≤ sys.passes ids ∧ sys.passes ids ≤ 8 :=
  sys.sizing.nPasses_bounds fit.forced ids.ne1

theorem Fit.share {il : Nat} {x : X} (member : il ∈ net.layers)
    (path : sys.prefills il (net.selected il x).ne1 = false) :
    (named sys.sizing.nExpert (net.selected il x).list).card ⌈/⌉
      sys.passes (net.selected il x) ≤ sys.rt.nSlots := by
  have tokens := fit.limit member path
  have within := (sys.sizing.safe_iff fit.known.1 fit.known.2 sys.pfReady).mp fit.safe
  have card : (named sys.sizing.nExpert (net.selected il x).list).card ≤ _ := named_card
  have length := Ids.list_length (net.selected il x)
  rw [(fit.router il x).columns] at length
  have most := Nat.mul_le_mul_right sys.sizing.topK tokens
  have slots := fit.slots
  have positive := (fit.passes (net.selected il x)).1
  rw [Nat.ceilDiv_eq_add_pred_div]
  apply (Nat.div_le_iff_le_mul_add_pred positive).mpr
  have enough : sys.rt.nSlots ≤ sys.passes (net.selected il x) * sys.rt.nSlots :=
    Nat.le_mul_of_pos_left _ positive
  omega

theorem Fit.call {il : Nat} {x : X} (member : il ∈ net.layers)
    (path : sys.prefills il (net.selected il x).ne1 = false) {pass : Nat}
    (inside : pass < sys.passes (net.selected il x)) :
    CallFits sys.sizing.nExpert
      ⟨il, pass, sys.passes (net.selected il x), net.selected il x⟩ := by
  have most := (fit.passes (net.selected il x)).2
  refine ⟨by dsimp only; omega, ?_⟩
  intro e _
  have count := (fit.router il x).count_le e
  have tokens := fit.limit member path
  have small := fit.limit_lt
  dsimp only
  omega

end MoeStream.Inference
