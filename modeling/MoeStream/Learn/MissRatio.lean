import Mathlib.Data.List.GetD
import MoeStream.Foundation.LruStack
import MoeStream.Learn.Recommend

/-!
# The measured miss-ratio curve

Embedding of `mrc_touch` and of the cumulative sums of `mrc_report`.  The reuse
distance of an access is the depth of its expert in the stack of its layer, so
the histogram has the hits of every capacity.
-/

set_option autoImplicit false

namespace MoeStream

open Foundation Foundation.FloatFormat

/-- The tables of `mrc_touch`, for `nLayer` layers of `nExpert` experts. -/
structure Mrc where
  nLayer : Nat
  nExpert : Nat
  last : Nat → Nat → Nat
  clock : Nat → Nat
  hist : Nat → Nat
  histL : Nat → Nat → Nat
  totL : Nat → Nat
  total : Nat
  cold : Nat

namespace Mrc

/-- What `finalize` assigns. -/
def start (nLayer nExpert : Nat) : Mrc where
  nLayer := nLayer
  nExpert := nExpert
  last := fun _ _ => 0
  clock := fun _ => 0
  hist := fun _ => 0
  histL := fun _ _ => 0
  totL := fun _ => 0
  total := 0
  cold := 0

/-- How many experts of the layer were touched after time `t`. -/
def reuse (m : Mrc) (il t : Nat) : Nat :=
  (List.range m.nExpert).countP fun e => decide (t < m.last il e)

/-- One more distance `r`, if the histograms have it. -/
def record (m : Mrc) (il r : Nat) : Mrc :=
  if r < m.nExpert then
    { m with
      hist := Function.update m.hist r (m.hist r + 1)
      histL := Function.update m.histL il
        (Function.update (m.histL il) r (m.histL il r + 1)) }
  else m

/-- `mrc_touch`. -/
def touch (m : Mrc) (il e : Nat) : Mrc :=
  if m.nLayer ≤ il ∨ m.nExpert ≤ e then m
  else
    let t := m.last il e
    let m := { m with
      total := m.total + 1
      totL := Function.update m.totL il (m.totL il + 1) }
    let m := if t = 0 then { m with cold := m.cold + 1 } else m.record il (m.reuse il t)
    { m with
      clock := Function.update m.clock il (m.clock il + 1)
      last := Function.update m.last il
        (Function.update (m.last il) e (m.clock il + 1)) }

def touches (m : Mrc) (ts : List (Nat × Nat)) : Mrc := ts.foldl (fun m t => m.touch t.1 t.2) m

@[simp] theorem touches_append (m : Mrc) (ts : List (Nat × Nat)) (t : Nat × Nat) :
    m.touches (ts ++ [t]) = (m.touches ts).touch t.1 t.2 := by
  simp only [touches]
  rw [List.foldl_append]
  rfl

end Mrc

def accesses (il : Nat) (ts : List (Nat × Nat)) : List Nat :=
  (ts.filter fun t => t.1 == il).map Prod.snd

@[simp] theorem accesses_own (ts : List (Nat × Nat)) (il e : Nat) :
    accesses il (ts ++ [(il, e)]) = accesses il ts ++ [e] := by
  simp [accesses]

theorem accesses_other (ts : List (Nat × Nat)) {il il' : Nat} (other : il' ≠ il) (e : Nat) :
    accesses il' (ts ++ [(il, e)]) = accesses il' ts := by
  simp [accesses, Ne.symm other]

/-! ## One touch -/

/-- The tables of one layer stand for the experts `ks` touched on it. -/
structure Measured (m : Mrc) (il : Nat) (ks : List Nat) : Prop where
  stamped : LruStack.Stamped (List.range m.nExpert) (m.last il) (m.clock il) (LruStack.stack ks)
  hist : ∀ r, m.histL il r = (LruStack.depths ks).count (some r)
  tot : m.totL il = ks.length

/-- What a touch changes, given the depth at which the expert is found. -/
structure Touched (m : Mrc) (il e : Nat) (d : Option Nat) (m' : Mrc) : Prop where
  layers : m'.nLayer = m.nLayer
  experts : m'.nExpert = m.nExpert
  last : m'.last = Function.update m.last il (Function.update (m.last il) e (m.clock il + 1))
  clock : m'.clock = Function.update m.clock il (m.clock il + 1)
  hist : ∀ r, m'.hist r = m.hist r + [d].count (some r)
  histL : ∀ r, m'.histL il r = m.histL il r + [d].count (some r)
  others : ∀ il', il' ≠ il → m'.histL il' = m.histL il'
  totL : m'.totL = Function.update m.totL il (m.totL il + 1)
  total : m'.total = m.total + 1
  cold : m'.cold = m.cold + [d].count none

section Touch

variable {m : Mrc} {il e : Nat} (layer : il < m.nLayer) (inside : e < m.nExpert)

include layer inside

theorem Mrc.touch_first (first : m.last il e = 0) :
    m.touch il e =
      { m with
        last := Function.update m.last il (Function.update (m.last il) e (m.clock il + 1))
        clock := Function.update m.clock il (m.clock il + 1)
        totL := Function.update m.totL il (m.totL il + 1)
        total := m.total + 1
        cold := m.cold + 1 } := by
  have known : ¬(m.nLayer ≤ il ∨ m.nExpert ≤ e) := by omega
  simp only [Mrc.touch, known, first, if_true, if_false]

omit layer in
theorem Mrc.reuse_lt : m.reuse il (m.last il e) < m.nExpert := by
  have self : ∃ k ∈ List.range m.nExpert, decide (m.last il e < m.last il k) = false :=
    ⟨e, List.mem_range.mpr inside, by simp⟩
  have short := List.countP_lt_length_iff.mpr self
  rwa [List.length_range] at short

theorem Mrc.touch_again (again : m.last il e ≠ 0) :
    m.touch il e =
      { m with
        last := Function.update m.last il (Function.update (m.last il) e (m.clock il + 1))
        clock := Function.update m.clock il (m.clock il + 1)
        hist := Function.update m.hist (m.reuse il (m.last il e))
          (m.hist (m.reuse il (m.last il e)) + 1)
        histL := Function.update m.histL il
          (Function.update (m.histL il) (m.reuse il (m.last il e))
            (m.histL il (m.reuse il (m.last il e)) + 1))
        totL := Function.update m.totL il (m.totL il + 1)
        total := m.total + 1 } := by
  have known : ¬(m.nLayer ≤ il ∨ m.nExpert ≤ e) := by omega
  have small : m.reuse il (m.last il e) < m.nExpert := Mrc.reuse_lt inside
  simp only [Mrc.reuse] at small ⊢
  simp only [Mrc.touch, Mrc.record, Mrc.reuse, known, again, small, if_true, if_false]

end Touch

theorem update_count (f : Nat → Nat) (d r : Nat) :
    Function.update f d (f d + 1) r = f r + [some d].count (some r) := by
  rw [List.count_singleton]
  by_cases same : r = d
  · subst same
    simp
  · rw [Function.update_of_ne same]
    simp [Ne.symm same]

theorem Measured.touched {m : Mrc} {il : Nat} {ks : List Nat} (measured : Measured m il ks)
    (layer : il < m.nLayer) {e : Nat} (inside : e < m.nExpert) :
    Touched m il e (LruStack.depth (LruStack.stack ks) e) (m.touch il e) := by
  rw [measured.stamped.depth List.nodup_range e]
  by_cases first : m.last il e = 0
  · rw [if_pos first, m.touch_first layer inside first]
    exact ⟨rfl, rfl, rfl, rfl, fun _ => rfl, fun _ => rfl, fun _ _ => rfl, rfl, rfl, rfl⟩
  · rw [if_neg first, m.touch_again layer inside first]
    refine ⟨rfl, rfl, rfl, rfl, ?_, ?_, ?_, rfl, rfl, rfl⟩
    · exact update_count m.hist _
    · intro r
      dsimp only
      rw [Function.update_self]
      exact update_count (m.histL il) _ r
    · exact fun il' other => Function.update_of_ne other _ _

theorem Measured.touch {m m' : Mrc} {il e : Nat} {ks : List Nat} (measured : Measured m il ks)
    (inside : e < m.nExpert) (touched : Touched m il e (LruStack.depth (LruStack.stack ks) e) m') :
    Measured m' il (ks ++ [e]) where
  stamped := by
    rw [touched.experts, touched.last, touched.clock, LruStack.stack_append, Function.update_self,
      Function.update_self]
    exact measured.stamped.push (List.mem_range.mpr inside)
  hist := by
    intro r
    rw [touched.histL, measured.hist, LruStack.depths_append, List.count_append]
  tot := by
    rw [touched.totL, Function.update_self, measured.tot, List.length_append,
      List.length_singleton]

theorem Measured.other {m m' : Mrc} {il il' e : Nat} {d : Option Nat} {ks : List Nat}
    (measured : Measured m il' ks) (other : il' ≠ il) (touched : Touched m il e d m') :
    Measured m' il' ks where
  stamped := by
    rw [touched.experts, touched.last, touched.clock, Function.update_of_ne other,
      Function.update_of_ne other]
    exact measured.stamped
  hist := by
    rw [touched.others il' other]
    exact measured.hist
  tot := by
    rw [touched.totL, Function.update_of_ne other]
    exact measured.tot

/-! ## A sequence of touches -/

/-- The tables after the touches `ts`. -/
structure Exact (nLayer nExpert : Nat) (ts : List (Nat × Nat)) (m : Mrc) : Prop where
  layers : m.nLayer = nLayer
  experts : m.nExpert = nExpert
  measured : ∀ il, il < nLayer → Measured m il (accesses il ts)
  hist : ∀ r, m.hist r = ∑ il ∈ Finset.range nLayer, m.histL il r
  total : m.total = ts.length
  cold : m.cold = ∑ il ∈ Finset.range nLayer, LruStack.firsts (accesses il ts)

theorem sum_grows {n i x : Nat} {f g : Nat → Nat} (inside : i < n) (own : g i = f i + x)
    (others : ∀ j, j ≠ i → g j = f j) :
    ∑ j ∈ Finset.range n, g j = (∑ j ∈ Finset.range n, f j) + x := by
  have member := Finset.mem_range.mpr inside
  have rest : ∑ j ∈ (Finset.range n).erase i, g j = ∑ j ∈ (Finset.range n).erase i, f j :=
    Finset.sum_congr rfl fun j listed => others j (Finset.ne_of_mem_erase listed)
  rw [← Finset.add_sum_erase _ g member, ← Finset.add_sum_erase _ f member, own, rest]
  omega

variable {nLayer nExpert : Nat} {ts : List (Nat × Nat)}

theorem Exact.start : Exact nLayer nExpert [] (Mrc.start nLayer nExpert) where
  layers := rfl
  experts := rfl
  measured := fun _ _ => ⟨LruStack.Stamped.start, fun _ => rfl, rfl⟩
  hist := fun _ => Finset.sum_const_zero.symm
  total := rfl
  cold := Finset.sum_const_zero.symm

theorem Exact.touch {m : Mrc} (exact : Exact nLayer nExpert ts m) {il e : Nat}
    (layer : il < nLayer) (inside : e < nExpert) :
    Exact nLayer nExpert (ts ++ [(il, e)]) (m.touch il e) := by
  have measured := exact.measured il layer
  have inside' : e < m.nExpert := by rw [exact.experts]; exact inside
  have touched := measured.touched (by rw [exact.layers]; exact layer) inside'
  refine ⟨touched.layers.trans exact.layers, touched.experts.trans exact.experts, ?_, ?_, ?_, ?_⟩
  · intro il' layer'
    by_cases own : il' = il
    · subst own
      rw [accesses_own]
      exact measured.touch inside' touched
    · rw [accesses_other ts own]
      exact (exact.measured il' layer').other own touched
  · intro r
    rw [touched.hist, exact.hist]
    exact (sum_grows layer (touched.histL r) fun il' other =>
      congrFun (touched.others il' other) r).symm
  · rw [touched.total, exact.total, List.length_append, List.length_singleton]
  · rw [touched.cold, exact.cold]
    apply (sum_grows layer ?_ ?_).symm
    · rw [accesses_own, ← LruStack.count_none, ← LruStack.count_none, LruStack.depths_append,
        List.count_append]
    · intro il' other
      rw [accesses_other ts other]

theorem Exact.touches (inside : ∀ t ∈ ts, t.1 < nLayer ∧ t.2 < nExpert) :
    Exact nLayer nExpert ts ((Mrc.start nLayer nExpert).touches ts) := by
  induction ts using List.reverseRecOn with
  | nil => exact Exact.start
  | append_singleton ts t ih =>
      have before := ih fun t' member => inside t' (List.mem_append_left _ member)
      obtain ⟨layer, expert⟩ := inside t (List.mem_append_right _ (List.mem_singleton.mpr rfl))
      rw [Mrc.touches_append]
      exact before.touch layer expert

/-- Every access of a layer is a first one or has a distance below the number of
experts. -/
theorem Measured.counted {m : Mrc} {il : Nat} {ks : List Nat} (measured : Measured m il ks)
    (inside : ∀ k ∈ ks, k < m.nExpert) :
    m.totL il = LruStack.firsts ks + ∑ r ∈ Finset.range m.nExpert, m.histL il r := by
  have below : LruStack.stack ks ⊆ List.range m.nExpert := fun k listed =>
    List.mem_range.mpr (inside k (LruStack.mem_stack.mp listed))
  have small := (List.subperm_of_subset (LruStack.stack_nodup ks) below).length_le
  rw [List.length_range] at small
  simp only [measured.tot, measured.hist]
  exact LruStack.length_eq ks small

/-! ## The hit rates -/

/-- The first loop of `mrc_report`, up to `k` slots: `hit` and `acc`.  `round` is
what an operation on doubles makes of its exact result. -/
def cumulate (round : ℚ → ℚ) (hist : List Nat) (total ne k : Nat) : List ℚ × Nat :=
  (List.range k).foldl
    (fun r c =>
      let acc := r.2 + hist.getD c 0
      (r.1.set (c + 1) (round (round acc / round total)), acc))
    (List.replicate (ne + 1) 0, 0)

/-- Both loops of `mrc_report` that fill `hit`. -/
def hitRates (round : ℚ → ℚ) (hist : List Nat) (total ne : Nat) : List ℚ :=
  (List.range' (hist.length + 1) (ne - hist.length)).foldl
    (fun hit c => hit.set c (hit.getD (c - 1) 0))
    (cumulate round hist total ne (min hist.length ne)).1

section HitRates

variable {round : ℚ → ℚ} (zero : round 0 = 0)

include zero in
theorem cumulate_spec (hist : List Nat) (total ne k : Nat) (short : k ≤ hist.length)
    (inside : k ≤ ne) :
    (cumulate round hist total ne k).1.length = ne + 1 ∧
      (cumulate round hist total ne k).2 = (hist.take k).sum ∧
      ∀ c, c ≤ k → (cumulate round hist total ne k).1[c]? =
        some (round (round (hist.take c).sum / round total)) := by
  induction k with
  | zero =>
      refine ⟨List.length_replicate, rfl, ?_⟩
      intro c none
      obtain rfl := Nat.le_zero.mp none
      simp [cumulate, zero]
  | succ k ih =>
      obtain ⟨length, acc, entries⟩ := ih (by omega) (by omega)
      have step : cumulate round hist total ne (k + 1) =
          ((cumulate round hist total ne k).1.set (k + 1)
              (round (round ((cumulate round hist total ne k).2 + hist.getD k 0 : Nat) /
                round total)),
            (cumulate round hist total ne k).2 + hist.getD k 0) := by
        simp only [cumulate]
        rw [List.range_succ, List.foldl_append]
        rfl
      have sum : (cumulate round hist total ne k).2 + hist.getD k 0 = (hist.take (k + 1)).sum := by
        rw [acc, List.getD_eq_getElem hist 0 (by omega), List.sum_take_succ hist k (by omega)]
      rw [step, sum]
      refine ⟨?_, rfl, ?_⟩
      · rw [List.length_set, length]
      · intro c bound
        by_cases last : c = k + 1
        · subst last
          exact List.getElem?_set_self (by omega)
        · rw [List.getElem?_set_ne (Ne.symm last)]
          exact entries c (by omega)

include zero in
/-- `hit[c]` is the share of the accesses with a distance below `c`. -/
theorem hitRates_spec (hist : List Nat) (total ne : Nat) {c : Nat} (inside : c ≤ ne) :
    (hitRates round hist total ne)[c]? =
      some (round (round (hist.take c).sum / round total)) := by
  obtain ⟨length, -, entries⟩ := cumulate_spec zero hist total ne (min hist.length ne)
    (Nat.min_le_left _ _) (Nat.min_le_right _ _)
  -- the second loop repeats the last entry
  have repeated : ∀ j, j ≤ ne - hist.length →
      let hit := (List.range' (hist.length + 1) j).foldl
        (fun hit c => hit.set c (hit.getD (c - 1) 0))
        (cumulate round hist total ne (min hist.length ne)).1
      hit.length = ne + 1 ∧ ∀ c, c ≤ min hist.length ne + j →
        hit[c]? = some (round (round (hist.take c).sum / round total)) := by
    intro j
    induction j with
    | zero => exact fun _ => ⟨length, entries⟩
    | succ j ih =>
        intro bound
        obtain ⟨sized, filled⟩ := ih (by omega)
        rw [List.range'_concat, List.foldl_append, List.foldl_cons, List.foldl_nil]
        generalize (List.range' (hist.length + 1) j).foldl
          (fun hit c => hit.set c (hit.getD (c - 1) 0))
          (cumulate round hist total ne (min hist.length ne)).1 = hit at sized filled ⊢
        dsimp only
        refine ⟨?_, ?_⟩
        · rw [List.length_set, sized]
        · intro c below
          by_cases last : c = hist.length + 1 + 1 * j
          · subst last
            have before := filled (hist.length + 1 + 1 * j - 1) (by omega)
            rw [List.getElem?_set_self (by omega), List.getD_eq_getElem?_getD, before]
            rw [List.take_of_length_le (by omega), List.take_of_length_le (by omega)]
            rfl
          · rw [List.getElem?_set_ne (Ne.symm last)]
            exact filled c (by omega)
  exact (repeated (ne - hist.length) (Nat.le_refl _)).2 c (by omega)

end HitRates

theorem Report.hitRates_eq (r : Report) {c : Nat} (inside : c ≤ r.nExpert) :
    (hitRates double r.hist r.total r.nExpert)[c]? = some (r.hit c) :=
  hitRates_spec Format.nearest_zero r.hist r.total r.nExpert inside

/-! ## What the curve says -/

/-- `g_mrc_hist`. -/
def Mrc.histogram (m : Mrc) : List Nat := (List.range m.nExpert).map m.hist

/-- The tables are those of least recently used caches, one a layer. -/
structure LruExact (nLayer nExpert : Nat) (ts : List (Nat × Nat)) (m : Mrc) : Prop where
  hits : ∀ il, il < nLayer → ∀ c,
    ∑ r ∈ Finset.range c, m.histL il r = LruStack.hits c (accesses il ts)
  counted : ∀ il, il < nLayer →
    m.totL il = LruStack.firsts (accesses il ts) + ∑ r ∈ Finset.range nExpert, m.histL il r
  cold : m.cold = ∑ il ∈ Finset.range nLayer, LruStack.firsts (accesses il ts)
  rates : ∀ c, c ≤ nExpert → (hitRates id m.histogram m.total nExpert)[c]? =
    some (((∑ il ∈ Finset.range nLayer, LruStack.hits c (accesses il ts) : Nat) : ℚ) / ts.length)

theorem mem_accesses {il e : Nat} (member : e ∈ accesses il ts) : (il, e) ∈ ts := by
  obtain ⟨⟨il', e'⟩, listed, rfl⟩ := List.mem_map.mp member
  obtain ⟨touched, own⟩ := List.mem_filter.mp listed
  rw [beq_iff_eq] at own
  subst own
  exact touched

theorem Exact.lru {m : Mrc} (exact : Exact nLayer nExpert ts m)
    (inside : ∀ t ∈ ts, t.2 < nExpert) : LruExact nLayer nExpert ts m := by
  have hits : ∀ il, il < nLayer → ∀ c,
      ∑ r ∈ Finset.range c, m.histL il r = LruStack.hits c (accesses il ts) := by
    intro il layer c
    simp only [(exact.measured il layer).hist, LruStack.hits_eq]
  refine ⟨hits, ?_, exact.cold, ?_⟩
  · intro il layer
    have counted := (exact.measured il layer).counted fun k member => by
      rw [exact.experts]
      exact inside _ (mem_accesses member)
    rwa [exact.experts] at counted
  · intro c bound
    have sums : (m.histogram.take c).sum =
        ∑ il ∈ Finset.range nLayer, LruStack.hits c (accesses il ts) := by
      calc (m.histogram.take c).sum
          = ∑ r ∈ Finset.range c, m.hist r := by
            simp only [Mrc.histogram]
            rw [← List.map_take, List.take_range, exact.experts, Nat.min_eq_left bound]
            rfl
        _ = ∑ r ∈ Finset.range c, ∑ il ∈ Finset.range nLayer, m.histL il r :=
            Finset.sum_congr rfl fun r _ => exact.hist r
        _ = ∑ il ∈ Finset.range nLayer, ∑ r ∈ Finset.range c, m.histL il r := Finset.sum_comm
        _ = ∑ il ∈ Finset.range nLayer, LruStack.hits c (accesses il ts) :=
            Finset.sum_congr rfl fun il member => hits il (Finset.mem_range.mp member) c
    rw [hitRates_spec rfl _ _ _ bound, sums, exact.total]
    rfl

/-- The measured curve is that of least recently used caches, for every sequence
of touches and every capacity; an access is counted as cold exactly if it is the
first of its expert on its layer. -/
theorem mrc_exact (inside : ∀ t ∈ ts, t.1 < nLayer ∧ t.2 < nExpert) :
    LruExact nLayer nExpert ts ((Mrc.start nLayer nExpert).touches ts) ∧
      ∀ pre il e post, ts = pre ++ (il, e) :: post →
        ((Mrc.start nLayer nExpert).touches (pre ++ [(il, e)])).cold =
          ((Mrc.start nLayer nExpert).touches pre).cold +
            if e ∈ accesses il pre then 0 else 1 := by
  refine ⟨(Exact.touches inside).lru fun t member => (inside t member).2, ?_⟩
  rintro pre il e post rfl
  have before : Exact nLayer nExpert pre ((Mrc.start nLayer nExpert).touches pre) :=
    Exact.touches fun t member => inside t (List.mem_append_left _ member)
  obtain ⟨layer, expert⟩ := inside (il, e) (List.mem_append_right _ List.mem_cons_self)
  have after := before.touch layer expert
  rw [Mrc.touches_append, after.cold, before.cold]
  apply sum_grows layer
  · rw [accesses_own]
    exact LruStack.firsts_append _ e
  · intro il' other
    rw [accesses_other pre other]

/-- Two layers of two experts, touched in turn. -/
theorem mrc_exact_turns :
    LruExact 2 2 [(0, 0), (1, 1), (0, 1), (1, 1), (0, 0)]
        ((Mrc.start 2 2).touches [(0, 0), (1, 1), (0, 1), (1, 1), (0, 0)]) ∧
      ∑ r ∈ Finset.range 2, ((Mrc.start 2 2).touches
        [(0, 0), (1, 1), (0, 1), (1, 1), (0, 0)]).histL 0 r = 1 := by
  refine ⟨(mrc_exact (by decide)).1, by decide⟩

end MoeStream
