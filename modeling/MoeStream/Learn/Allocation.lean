import Mathlib.Algebra.BigOperators.GroupWithZero.Action
import Mathlib.Algebra.Order.Ring.Rat
import MoeStream.Foundation.UpperHull
import MoeStream.Learn.MissRatio

/-!
# The per-layer allocation

Embedding of the part of `mrc_report` that asks what another split of the slots
over the layers would gain.  Every layer contributes the rising edges of the
upper hull of its cumulative curve, and the slots are given to the edges by
slope.  Doubles are rationals.
-/

set_option autoImplicit false

namespace MoeStream

open Foundation

/-- `g_mrc_hist_l[l]` and `g_mrc_tot_l[l]`. -/
structure LayerDistances where
  hist : List Nat
  tot : Nat

/-- `AllocSeg`. -/
structure AllocSeg where
  slope : ℚ
  n : Nat
  layer : Nat

structure Fill where
  hitOpt : ℚ
  cur : Nat → Nat
  used : Nat

structure AllocReport where
  budget : Nat
  hitUniform : Nat
  totAll : Nat
  fill : Fill
  mn : Nat
  mx : Nat

/-- `V` of a layer. -/
def curve (h : List Nat) : Nat → ℚ
  | 0 => 0
  | c + 1 => curve h c + (h.getD c 0 : Nat)

def hullEdges (h : List Nat) : List (ℚ × Nat) :=
  UpperHull.edges (curve h) (UpperHull.chain (curve h) h.length)

/-- The segments of layer `l`. -/
def layerSegs (l : Nat) (h : List Nat) : List AllocSeg :=
  ((hullEdges h).filter fun e => 0 < e.1).map fun e => ⟨e.1, e.2, l⟩

/-- `segs` before it is sorted, from layer `l` on. -/
def allocSegs : Nat → List LayerDistances → List AllocSeg
  | _, [] => []
  | l, d :: layers => layerSegs l d.hist ++ allocSegs (l + 1) layers

/-- What a sort by descending slope may leave of `segs`. -/
structure SortedSegs (segs sorted : List AllocSeg) : Prop where
  perm : sorted.Perm segs
  order : sorted.Pairwise fun sg sg' => sg'.slope ≤ sg.slope

def fillSegs (budget : Nat) : Fill → List AllocSeg → Fill
  | f, [] => f
  | f, sg :: segs =>
      if budget ≤ f.used then f
      else
        let take := min sg.n (budget - f.used)
        fillSegs budget
          { hitOpt := f.hitOpt + sg.slope * (take : ℚ)
            cur := Function.update f.cur sg.layer (f.cur sg.layer + take)
            used := f.used + take } segs

def activeSlots (cur : Nat → Nat) (layers : List LayerDistances) : List Nat :=
  (layers.zipIdx.filter fun d => d.1.tot ≠ 0).map fun d => cur d.2

/-- The report over sorted segments, if there are samples enough. -/
def allocReport (layers : List LayerDistances) (slots : Nat) (sorted : List AllocSeg) :
    Option AllocReport :=
  let totAll := (layers.map LayerDistances.tot).sum
  let budget := slots * layers.length
  let fill := fillSegs budget ⟨0, fun _ => 0, 0⟩ sorted
  let active := activeSlots fill.cur layers
  if 1000 < totAll then
    some
      { budget := budget
        hitUniform := (layers.map fun d => (d.hist.take slots).sum).sum
        totAll := totAll
        fill := fill
        mn := active.min?.getD 0
        mx := active.foldl max 0 }
  else none

def AllocReport.gain (r : AllocReport) : ℚ :=
  100 * r.fill.hitOpt / r.totAll - 100 * r.hitUniform / r.totAll

def allocHits (layers : List LayerDistances) (as : List Nat) : ℚ :=
  (List.zipWith (fun d a => curve d.hist a) layers as).sum

/-! ## The curves -/

theorem curve_take (h : List Nat) (c : Nat) : curve h c = ((h.take c).sum : Nat) := by
  induction c with
  | zero => simp [curve]
  | succ c ih =>
      rw [curve, ih, List.take_add_one, List.sum_append, List.getD_eq_getElem?_getD]
      cases h[c]? <;> simp

/-- The histogram of layer `il`. -/
def Mrc.histogramL (m : Mrc) (il : Nat) : List Nat := (List.range m.nExpert).map (m.histL il)

/-- `g_mrc_hist_l` and `g_mrc_tot_l`. -/
def Mrc.distances (m : Mrc) : List LayerDistances :=
  (List.range m.nLayer).map fun il => ⟨m.histogramL il, m.totL il⟩

/-- The curve of a measured layer counts the hits of a least recently used cache. -/
theorem curve_measured {nLayer nExpert : Nat} {ts : List (Nat × Nat)} {m : Mrc}
    (exact : Exact nLayer nExpert ts m) {il : Nat} (layer : il < nLayer) {c : Nat}
    (inside : c ≤ nExpert) : curve (m.histogramL il) c = LruStack.hits c (accesses il ts) := by
  have sum : ((m.histogramL il).take c).sum = ∑ r ∈ Finset.range c, m.histL il r := by
    rw [Mrc.histogramL, ← List.map_take, List.take_range, exact.experts, Nat.min_eq_left inside]
    rfl
  rw [curve_take, sum]
  simp only [(exact.measured il layer).hist, LruStack.hits_eq]

/-- An allocation hits what least recently used caches of its sizes hit. -/
theorem allocHits_measured {nLayer nExpert : Nat} {ts : List (Nat × Nat)} {m : Mrc}
    (exact : Exact nLayer nExpert ts m) {as : List Nat}
    (within : List.Forall₂ (fun d a => a ≤ d.hist.length) m.distances as) :
    allocHits m.distances as =
      ((List.zipWith (fun il a => LruStack.hits a (accesses il ts))
        (List.range nLayer) as).sum : Nat) := by
  simp only [Mrc.distances] at within ⊢
  rw [exact.layers] at within ⊢
  have layers : ∀ il ∈ List.range nLayer, il < nLayer := fun il => List.mem_range.mp
  generalize List.range nLayer = ils at within layers ⊢
  induction ils generalizing as with
  | nil => simp [allocHits]
  | cons il ils ih =>
      cases within with
      | @cons _ a _ as inside within =>
          have wide : a ≤ nExpert := by simpa [Mrc.histogramL, exact.experts] using inside
          have rest := ih within fun il' member => layers il' (List.mem_cons_of_mem _ member)
          simp only [allocHits] at rest ⊢
          rw [List.map_cons, List.zipWith_cons_cons, List.zipWith_cons_cons, List.sum_cons,
            List.sum_cons, rest, curve_measured exact (layers il List.mem_cons_self) wide,
            Nat.cast_add]

theorem hullEdges_width (h : List Nat) : ((hullEdges h).map Prod.snd).sum ≤ h.length := by
  obtain ⟨vertices, below⟩ := UpperHull.chain_vertices (curve h) h.length
  simp only [hullEdges]
  cases chained : UpperHull.chain (curve h) h.length with
  | nil => simp [UpperHull.edges]
  | cons b rest =>
      rw [chained] at vertices below
      rw [UpperHull.edges_width vertices]
      exact below b List.mem_cons_self

/-- A layer hits no more than the price of its slots and what its edges bring. -/
theorem curve_le (price : ℚ) {h : List Nat} {a : Nat} (inside : a ≤ h.length) :
    curve h a ≤ price * a + SlopeFill.profit price (hullEdges h) := by
  have bound := UpperHull.worth_le_profit (V := curve h) price inside
  simp only [UpperHull.worth, curve] at bound
  simp only [hullEdges]
  linarith

/-! ## The segments -/

def AllocSeg.edge (sg : AllocSeg) : ℚ × Nat := (sg.slope, sg.n)

theorem layerSegs_edges (l : Nat) (h : List Nat) :
    (layerSegs l h).map AllocSeg.edge = (hullEdges h).filter fun e => 0 < e.1 := by
  simp only [layerSegs, List.map_map]
  exact List.map_id _

theorem allocSegs_rise {l : Nat} {layers : List LayerDistances} :
    ∀ sg ∈ allocSegs l layers, 0 < sg.slope := by
  induction layers generalizing l with
  | nil => exact fun sg member => by cases member
  | cons d layers ih =>
      intro sg member
      rcases List.mem_append.mp member with own | later
      · obtain ⟨e, kept, rfl⟩ := List.mem_map.mp own
        simpa using (List.mem_filter.mp kept).2
      · exact ih sg later

/-- At no price an allocation hits more than the price of its slots and what the
segments bring. -/
theorem allocHits_le {price : ℚ} (nonneg : 0 ≤ price) {layers : List LayerDistances}
    {as : List Nat} (within : List.Forall₂ (fun d a => a ≤ d.hist.length) layers as) (l : Nat) :
    allocHits layers as ≤
      price * (as.sum : Nat) + SlopeFill.profit price ((allocSegs l layers).map AllocSeg.edge) := by
  induction within generalizing l with
  | nil => simp [allocHits, allocSegs, SlopeFill.profit]
  | @cons d a layers as inside within ih =>
      have own := curve_le price inside
      have rest := ih (l + 1)
      simp only [allocHits] at rest ⊢
      simp only [allocSegs]
      rw [List.zipWith_cons_cons, List.sum_cons, List.sum_cons, List.map_append,
        SlopeFill.profit_append, layerSegs_edges, SlopeFill.profit_filter nonneg, Nat.cast_add]
      linarith

def segsWidth (l : Nat) (segs : List AllocSeg) : Nat :=
  ((segs.filter fun sg => sg.layer == l).map AllocSeg.n).sum

@[simp] theorem segsWidth_cons (l : Nat) (sg : AllocSeg) (segs : List AllocSeg) :
    segsWidth l (sg :: segs) = (if sg.layer = l then sg.n else 0) + segsWidth l segs := by
  by_cases own : sg.layer = l <;> simp [segsWidth, own]

@[simp] theorem segsWidth_append (l : Nat) (first second : List AllocSeg) :
    segsWidth l (first ++ second) = segsWidth l first + segsWidth l second := by
  simp [segsWidth]

theorem segsWidth_perm (l : Nat) {first second : List AllocSeg} (perm : first.Perm second) :
    segsWidth l first = segsWidth l second :=
  ((perm.filter _).map _).sum_eq

theorem layerSegs_width (l : Nat) (h : List Nat) : segsWidth l (layerSegs l h) ≤ h.length := by
  have own : (layerSegs l h).filter (fun sg => sg.layer == l) = layerSegs l h := by
    apply List.filter_eq_self.mpr
    intro sg member
    obtain ⟨e, -, rfl⟩ := List.mem_map.mp member
    exact beq_self_eq_true l
  have rising : ((layerSegs l h).map AllocSeg.n).Sublist ((hullEdges h).map Prod.snd) := by
    simp only [layerSegs, List.map_map]
    exact List.filter_sublist.map _
  rw [segsWidth, own]
  exact (rising.sum_le_sum fun _ _ => Nat.zero_le _).trans (hullEdges_width h)

theorem layerSegs_other {l l' : Nat} (other : l' ≠ l) (h : List Nat) :
    segsWidth l (layerSegs l' h) = 0 := by
  have none : (layerSegs l' h).filter (fun sg => sg.layer == l) = [] := by
    apply List.filter_eq_nil_iff.mpr
    intro sg member
    obtain ⟨e, -, rfl⟩ := List.mem_map.mp member
    simpa using other
  rw [segsWidth, none]
  rfl

theorem allocSegs_before {l k : Nat} (before : l < k) (layers : List LayerDistances) :
    segsWidth l (allocSegs k layers) = 0 := by
  induction layers generalizing k with
  | nil => rfl
  | cons d layers ih =>
      rw [allocSegs, segsWidth_append, layerSegs_other (Nat.ne_of_gt before),
        ih (Nat.lt_succ_of_lt before)]

theorem allocSegs_width {layers : List LayerDistances} {l : Nat} (inside : l < layers.length)
    (k : Nat) : segsWidth (k + l) (allocSegs k layers) ≤ layers[l].hist.length := by
  induction layers generalizing l k with
  | nil => cases inside
  | cons d layers ih =>
      rw [allocSegs, segsWidth_append]
      cases l with
      | zero =>
          rw [allocSegs_before (Nat.lt_succ_self _)]
          exact layerSegs_width k d.hist
      | succ l =>
          have later := ih (Nat.lt_of_succ_lt_succ inside) (k + 1)
          have place : k + 1 + l = k + (l + 1) := by omega
          rw [place] at later
          rw [layerSegs_other (by omega), Nat.zero_add]
          exact later

/-! ## The loop -/

theorem fillSegs_used {budget : Nat} (segs : List AllocSeg) {f : Fill} (within : f.used ≤ budget) :
    (fillSegs budget f segs).used ≤ budget := by
  induction segs generalizing f with
  | nil => exact within
  | cons sg segs ih =>
      simp only [fillSegs]
      split
      · exact within
      · apply ih
        have take := Nat.min_le_right sg.n (budget - f.used)
        show f.used + min sg.n (budget - f.used) ≤ budget
        omega

theorem fillSegs_cur (budget l : Nat) (segs : List AllocSeg) (f : Fill) :
    (fillSegs budget f segs).cur l ≤ f.cur l + segsWidth l segs := by
  induction segs generalizing f with
  | nil => exact Nat.le_add_right _ _
  | cons sg segs ih =>
      simp only [fillSegs]
      split
      · exact Nat.le_add_right _ _
      · have take := Nat.min_le_left sg.n (budget - f.used)
        refine (ih _).trans ?_
        rw [segsWidth_cons]
        by_cases own : sg.layer = l
        · subst own
          simp only [Function.update_self, if_true]
          omega
        · simp only [Function.update_of_ne (Ne.symm own), own, if_false]
          omega

theorem fillSegs_hitOpt (budget : Nat) (segs : List AllocSeg) (f : Fill) :
    (fillSegs budget f segs).hitOpt =
      f.hitOpt + SlopeFill.greedy (budget - f.used) (segs.map AllocSeg.edge) := by
  induction segs generalizing f with
  | nil => simp [fillSegs, SlopeFill.greedy]
  | cons sg segs ih =>
      simp only [fillSegs]
      split
      · rename_i spent
        rw [Nat.sub_eq_zero_of_le spent, SlopeFill.greedy_zero, add_zero]
      · have left : budget - (f.used + min sg.n (budget - f.used)) = budget - f.used - sg.n := by
          omega
        rw [ih, left]
        simp only [List.map_cons, SlopeFill.greedy, AllocSeg.edge]
        ring

theorem allocHits_le_fill {layers : List LayerDistances} {sorted : List AllocSeg}
    (sort : SortedSegs (allocSegs 0 layers) sorted) {budget : Nat} {as : List Nat}
    (within : List.Forall₂ (fun d a => a ≤ d.hist.length) layers as) (spent : as.sum ≤ budget) :
    allocHits layers as ≤ (fillSegs budget ⟨0, fun _ => 0, 0⟩ sorted).hitOpt := by
  have order : (sorted.map AllocSeg.edge).Pairwise fun sg sg' => sg'.1 ≤ sg.1 :=
    List.pairwise_map.mpr sort.order
  have rising : ∀ e ∈ sorted.map AllocSeg.edge, 0 ≤ e.1 := by
    intro e member
    obtain ⟨sg, kept, rfl⟩ := List.mem_map.mp member
    exact le_of_lt (allocSegs_rise sg (sort.perm.mem_iff.mp kept))
  obtain ⟨price, nonneg, -, enough⟩ := SlopeFill.greedy_price order rising budget
  have hits := allocHits_le nonneg within 0
  have cost : price * (as.sum : Nat) ≤ price * budget :=
    mul_le_mul_of_nonneg_left (Nat.cast_le.mpr spent) nonneg
  rw [SlopeFill.profit_perm price (sort.perm.map AllocSeg.edge)] at enough
  rw [fillSegs_hitOpt, zero_add, Nat.sub_zero]
  linarith

theorem fillSegs_total {budget nLayer : Nat} {segs : List AllocSeg}
    (layers : ∀ sg ∈ segs, sg.layer < nLayer) {f : Fill}
    (total : ∑ l ∈ Finset.range nLayer, f.cur l = f.used) :
    ∑ l ∈ Finset.range nLayer, (fillSegs budget f segs).cur l =
      (fillSegs budget f segs).used := by
  induction segs generalizing f with
  | nil => exact total
  | cons sg segs ih =>
      simp only [fillSegs]
      split
      · exact total
      · apply ih fun sg member => layers sg (List.mem_cons_of_mem _ member)
        have inside := layers sg List.mem_cons_self
        have grown := sum_grows inside
          (Function.update_self sg.layer (f.cur sg.layer + min sg.n (budget - f.used)) f.cur)
          fun l other => Function.update_of_ne other _ f.cur
        rwa [total] at grown

theorem allocSegs_layer {l : Nat} {layers : List LayerDistances} :
    ∀ sg ∈ allocSegs l layers, sg.layer < l + layers.length := by
  induction layers generalizing l with
  | nil => exact fun sg member => by cases member
  | cons d layers ih =>
      intro sg member
      rw [List.length_cons]
      rcases List.mem_append.mp member with own | later
      · obtain ⟨e, -, rfl⟩ := List.mem_map.mp own
        show l < l + (layers.length + 1)
        omega
      · have bound := ih sg later
        omega

def evenSplit (slots : Nat) (layers : List LayerDistances) : List Nat :=
  layers.map fun d => min slots d.hist.length

theorem evenSplit_within (slots : Nat) (layers : List LayerDistances) :
    List.Forall₂ (fun d a => a ≤ d.hist.length) layers (evenSplit slots layers) := by
  simp only [evenSplit]
  induction layers with
  | nil => exact .nil
  | cons d layers ih => exact .cons (Nat.min_le_right _ _) ih

theorem evenSplit_sum (slots : Nat) (layers : List LayerDistances) :
    (evenSplit slots layers).sum ≤ slots * layers.length := by
  simp only [evenSplit]
  induction layers with
  | nil => exact Nat.zero_le _
  | cons d layers ih =>
      have own := Nat.min_le_left slots d.hist.length
      rw [List.map_cons, List.sum_cons, List.length_cons, Nat.mul_succ]
      omega

theorem evenSplit_hits (slots : Nat) (layers : List LayerDistances) :
    allocHits layers (evenSplit slots layers) =
      ((layers.map fun d => (d.hist.take slots).sum).sum : Nat) := by
  simp only [allocHits, evenSplit]
  induction layers with
  | nil => simp
  | cons d layers ih =>
      rw [List.map_cons, List.zipWith_cons_cons, List.sum_cons, ih, List.map_cons, List.sum_cons,
        curve_take, Nat.cast_add, ← List.take_eq_take_min]

/-! ## The report -/

theorem sortedSegs_mergeSort (segs : List AllocSeg) :
    SortedSegs segs (segs.mergeSort fun sg sg' => sg'.slope ≤ sg.slope) where
  perm := List.mergeSort_perm segs _
  order := by
    have sorted : (segs.mergeSort fun sg sg' => sg'.slope ≤ sg.slope).Pairwise
        fun sg sg' => decide (sg'.slope ≤ sg.slope) = true :=
      List.pairwise_mergeSort (by simpa using fun _ _ _ first second => second.trans first)
        (by simpa using fun sg sg' : AllocSeg => le_total sg'.slope sg.slope) segs
    simpa using sorted

/-- The report bounds every allocation of the slots, the even split among them,
and its own allocation is one that the slots and the layers allow. -/
theorem alloc_upper (layers : List LayerDistances) (slots : Nat) {sorted : List AllocSeg}
    (sort : SortedSegs (allocSegs 0 layers) sorted) {r : AllocReport}
    (made : allocReport layers slots sorted = some r) :
    (∀ as, List.Forall₂ (fun d a => a ≤ d.hist.length) layers as →
        as.sum ≤ slots * layers.length → allocHits layers as ≤ r.fill.hitOpt) ∧
      (r.hitUniform : ℚ) ≤ r.fill.hitOpt ∧ 0 ≤ r.gain ∧
      r.fill.used ≤ slots * layers.length ∧
      ∑ l ∈ Finset.range layers.length, r.fill.cur l = r.fill.used ∧
      ∀ (l : Nat) (inside : l < layers.length), r.fill.cur l ≤ layers[l].hist.length := by
  obtain ⟨-, made⟩ := Option.ite_none_right_eq_some.mp made
  obtain rfl := Option.some.inj made
  have upper := @allocHits_le_fill layers sorted sort (slots * layers.length)
  have even := upper (evenSplit_within slots layers) (evenSplit_sum slots layers)
  rw [evenSplit_hits] at even
  refine ⟨fun as within spent => upper within spent, even, ?_,
    fillSegs_used sorted (Nat.zero_le _), ?_, ?_⟩
  · have more := mul_le_mul_of_nonneg_left even (show (0 : ℚ) ≤ 100 by norm_num)
    exact sub_nonneg.mpr (div_le_div_of_nonneg_right more (Nat.cast_nonneg _))
  · apply fillSegs_total
    · intro sg member
      have bound := allocSegs_layer sg (sort.perm.mem_iff.mp member)
      rwa [Nat.zero_add] at bound
    · simp
  · intro l inside
    have filled := fillSegs_cur (slots * layers.length) l sorted ⟨0, fun _ => 0, 0⟩
    have wide := allocSegs_width inside 0
    rw [segsWidth_perm l sort.perm, Nat.zero_add] at filled
    rw [Nat.zero_add] at wide
    exact filled.trans wide

/-- Two layers of four experts; the first has no hit below the distance two. -/
def twoDistances : List LayerDistances := [⟨[0, 0, 700, 10], 800⟩, ⟨[300, 100, 5, 0], 500⟩]

/-- `alloc_upper` at an allocation of two slots a layer that is not even. -/
theorem alloc_upper_two :
    allocHits twoDistances [3, 1] ≤
      (fillSegs 4 ⟨0, fun _ => 0, 0⟩ ((allocSegs 0 twoDistances).mergeSort fun sg sg' =>
        sg'.slope ≤ sg.slope)).hitOpt :=
  (alloc_upper twoDistances 2 (sortedSegs_mergeSort _) rfl).1 [3, 1]
    (.cons (by decide) (.cons (by decide) .nil)) (by decide)

end MoeStream
