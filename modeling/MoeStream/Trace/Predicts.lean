import MoeStream.Slab.DecodeRows
import MoeStream.Trace.Replay

/-!
# A replay predicts the runtime

A trace is decoded token by token, each layer through its own cache, or replayed
offline through one cache.  The relation `Together` holds between the layers of
the one cache and the separate caches whenever nobody is in use: at the end of a
row offline, and in the runtime once the next call has dropped what its layer
held.
-/

set_option autoImplicit false

namespace MoeStream.ExpertTrace

open ExpertCache Foundation.FixedWidth

/-! ## One cache and many -/

/-- The first `n` layers of a cache and a cache for each of them. -/
structure Together (c : ExpertCache) (n : Nat) (d : Nat → ExpertCache) : Prop where
  apportioned : c.Apportioned
  layers : c.cfg.nLayer = n
  static : c.cfg.layerQuotaAdapt = false
  alike : ∀ l, l < n → Alike c l (d l) 0
  idle : ∀ l, l < n → c.Idle l
  single : ∀ l, l < n → (d l).Single

variable {c : ExpertCache} {n l eb nbytes : Nat} {d d' : Nat → ExpertCache} {es : List Nat}

theorem Single.apportioned {c : ExpertCache} (single : c.Single) : c.Apportioned := by
  have room := single.ok.resident_sum
  have quota := single.quota
  rw [single.layers, Finset.sum_range_one] at room
  refine ⟨single.ok, ?_, ?_⟩
  · rw [single.layers, Finset.sum_range_one, quota]
  · intro l layer
    rw [single.layers] at layer
    obtain rfl : l = 0 := by omega
    omega

theorem Single.served {c : ExpertCache} (single : c.Single) {gs : List Nat}
    (inside : ∀ e ∈ es, e < c.cfg.nExpert) (dropped : ∀ e ∈ gs, e < c.cfg.nExpert) :
    ((c.requests 0 nbytes es).releases 0 gs).Single := by
  induction es generalizing c with
  | nil => exact single.releases gs dropped
  | cons e rest ih =>
      obtain ⟨next, cfg⟩ := Single.request single (inside e List.mem_cons_self) nbytes
      apply ih next
      · rw [cfg]
        exact fun k member => inside k (List.mem_cons_of_mem e member)
      · rw [cfg]
        exact dropped

theorem Together.congr (together : Together c n d) (same : ∀ l, l < n → d' l = d l) :
    Together c n d' where
  apportioned := together.apportioned
  layers := together.layers
  static := together.static
  alike := fun l layer => by rw [same l layer]; exact together.alike l layer
  idle := together.idle
  single := fun l layer => by rw [same l layer]; exact together.single l layer

def rowServed (nbytes : Nat) (d : ExpertCache) (row : List Nat) : ExpertCache :=
  (d.requests 0 nbytes row).releases 0 (granted 0 nbytes d row)

structure RowTogether (c : ExpertCache) (n l eb nbytes : Nat) (d : Nat → ExpertCache)
    (es : List Nat) : Prop where
  answers : answered l eb c es = answered 0 nbytes (d l) es
  gained : Gained c.st eb (answered l eb c es) (replayRow eb c l es).st
  gained' : Gained (d l).st nbytes (answered l eb c es)
    (rowServed nbytes (d l) es).st
  together : Together (replayRow eb c l es) n
    (Function.update d l (rowServed nbytes (d l) es))
  experts : (replayRow eb c l es).cfg = c.cfg

theorem Together.row (together : Together c n d) (layer : l < n)
    (inside : ∀ e ∈ es, e < c.cfg.nExpert) : RowTogether c n l eb nbytes d es := by
  have alike := together.alike l layer
  have single := together.single l layer
  have idle := together.idle l layer
  have below : l < c.cfg.nLayer := by rw [together.layers]; exact layer
  have separate := Single.apportioned single
  have kept := fun k member => inside k ((granted_sublist l eb c es).subset member)
  have inside' : ∀ e ∈ es, e < (d l).cfg.nExpert := by rw [alike.experts]; exact inside
  have same := (alike.requests together.apportioned separate below single.layer eb nbytes es
    inside).2.1
  have left := together.apportioned.settled below idle eb inside inside
    fun e => (granted_sublist l eb c es).count_le e
  have idle' : (d l).Idle 0 := by
    intro e small
    rw [alike.experts] at small
    rw [alike.rc small]
    exact idle e small
  have right := separate.settled single.layer idle' nbytes inside'
    (fun e member => inside' e ((granted_sublist 0 nbytes (d l) es).subset member))
    fun _ => Nat.le_refl _
  obtain ⟨answers, after⟩ := alike.settled together.apportioned separate below single.layer idle
    eb nbytes (granted 0 nbytes (d l) es) inside inside (by rw [← same]; exact kept)
    (fun e => (granted_sublist l eb c es).count_le e) (fun e => by rw [same])
  refine ⟨answers, left.gained, answers ▸ right.gained, ?_, left.within.cfg⟩
  refine ⟨left.apportioned, left.within.cfg ▸ together.layers, left.within.cfg ▸ together.static,
    ?_, ?_, ?_⟩
  · intro k other
    by_cases own : k = l
    · subst own
      rw [Function.update_self]
      exact after
    · rw [Function.update_of_ne own]
      exact (together.alike k other).other own left.within
  · intro k other
    by_cases own : k = l
    · subst own
      exact left.idle
    · intro e small
      have inside : e < c.cfg.nExpert := left.within.cfg ▸ small
      simp only [replayRow]
      rw [left.within.entries k e own inside]
      exact together.idle k other e inside
  · intro k other
    by_cases own : k = l
    · subst own
      rw [Function.update_self]
      exact Single.served single inside'
        fun e member => inside' e ((granted_sublist 0 nbytes (d k) es).subset member)
    · rw [Function.update_of_ne own]
      exact together.single k other

theorem Together.endStep (together : Together c n d) : Together c.endStep n d := by
  have stepped := endStep_static together.static
  have within := fun l => (Within.endStep together.static l).1
  have agrees := fun l => (Within.endStep together.static l).2
  refine ⟨⟨together.apportioned.ok.endStep.ok, ?_, ?_⟩, ?_, ?_, ?_, ?_, together.single⟩
  all_goals rw [stepped]
  · exact together.apportioned.sum
  · exact together.apportioned.within
  · exact together.layers
  · exact together.static
  · intro l layer
    exact (stepped ▸ agrees l).symm.trans (together.alike l layer)
  · exact together.idle

theorem Together.start {cfg : Config} {slots : Nat} (static : cfg.layerQuotaAdapt = false)
    (layers : 0 < cfg.nLayer) (equal : (init cfg).nSlot = cfg.nLayer * slots)
    (d : Nat → Config) (one : ∀ l, (d l).nLayer = 1) (experts : ∀ l, (d l).nExpert = cfg.nExpert)
    (mult : ∀ l, (d l).ghostMult = cfg.ghostMult) (few : ∀ l, (init (d l)).nSlot = slots) :
    Together (init cfg) cfg.nLayer fun l => init (d l) := by
  have quota : ∀ l, (init cfg).quota l = slots := by
    intro l
    have share : (init cfg).nSlot / cfg.nLayer = slots := by
      rw [equal]
      exact Nat.mul_div_cancel_left slots layers
    have rest : (init cfg).nSlot - (init cfg).nSlot / cfg.nLayer * cfg.nLayer = 0 := by
      rw [share, equal, Nat.mul_comm, Nat.sub_self]
    have spread : (init cfg).quota = handRemainder cfg.nLayer
      ((init cfg).nSlot - (init cfg).nSlot / cfg.nLayer * cfg.nLayer) 0
      fun _ => (init cfg).nSlot / cfg.nLayer := rfl
    rw [spread, rest, share]
    rfl
  have single : ∀ l, (init (d l)).Single := fun l => Single.initial (one l)
  refine ⟨init_apportioned layers, rfl, static, ?_, fun _ _ _ _ => rfl, fun l _ => single l⟩
  intro l layer
  refine ⟨experts l, mult l, ?_, rfl, fun _ _ => rfl⟩
  rw [(single l).quota, few, quota]

/-! ## The policy comparison -/

structure Compared (tr : Trace) (c : ExpertCache) (p : PolicySim) : Prop where
  together : Together c tr.nMoe p.cache
  experts : c.cfg.nExpert = tr.nExpertSim
  hit : p.hit = c.st.hit
  miss : p.miss = c.st.miss

variable {tr : Trace} {p : PolicySim}

theorem Compared.row (compared : Compared tr c p) (layer : l < tr.nMoe) (t : Nat) :
    Compared tr (replayRow eb c l (tr.row t l)) (simLayer tr t p l) := by
  have inside : ∀ e ∈ tr.row t l, e < c.cfg.nExpert := by
    rw [compared.experts]
    exact fun e member => Trace.row_lt member
  have row : RowTogether c tr.nMoe l eb 1 p.cache (tr.row t l) :=
    compared.together.row layer inside
  have sims := simRequest_row (r := ⟨p.cache l, [], p.hit, p.miss⟩)
    (compared.together.single l layer) (tr.row t l)
    ((compared.together.alike l layer).experts.trans compared.experts)
    fun e member => Trace.row_lt member
  refine ⟨?_, ?_, ?_, ?_⟩
  · have cache : (simLayer tr t p l).cache =
        Function.update p.cache l (rowServed 1 (p.cache l) (tr.row t l)) := by
      simp only [simLayer, rowServed]
      rw [sims.cache, sims.held]
      rfl
    rw [cache]
    exact row.together
  · rw [row.experts]
    exact compared.experts
  · rw [row.gained.hit, row.answers, ← compared.hit]
    exact sims.hit
  · rw [row.gained.miss, row.answers, ← compared.miss]
    exact sims.miss

theorem endStep_kept (static : c.cfg.layerQuotaAdapt = false) :
    c.endStep.cfg = c.cfg ∧ c.endStep.st = c.st := by
  rw [endStep_static static]
  exact ⟨rfl, rfl⟩

theorem Compared.token (compared : Compared tr c p) (t : Nat) :
    Compared tr (replayToken tr eb c t) ((List.range tr.nMoe).foldl (simLayer tr t) p) := by
  have rows : Compared tr
      ((List.range tr.nMoe).foldl (fun c l => replayRow eb c l (tr.row t l)) c)
      ((List.range tr.nMoe).foldl (simLayer tr t) p) := by
    apply List.foldl_rel compared
    intro l member c p compared
    exact compared.row (List.mem_range.mp member) t
  obtain ⟨cfg, st⟩ := endStep_kept rows.together.static
  refine ⟨rows.together.endStep, ?_, ?_, ?_⟩
  · simp only [replayToken]
    rw [cfg]
    exact rows.experts
  · simp only [replayToken]
    rw [st]
    exact rows.hit
  · simp only [replayToken]
    rw [st]
    exact rows.miss

/-! ## The runtime -/

/-- The calls of a run that decodes the tokens of a trace one by one, `il l` being
the layer of the graph that is layer `l` of the trace. -/
def decodeCalls (tr : Trace) (il : Nat → Nat) (io : Nat → Nat → Io) (ids : Nat → Nat → Ids) :
    List (Io × Call) :=
  (List.range tr.nToken).flatMap fun t =>
    (List.range tr.nMoe).map fun l => (io t l, ⟨il l, 0, 1, ids t l⟩)

variable {rt : Runtime} {nExpert : Nat} {il : Nat → Nat} {r : State × Nat}

structure Placed (rt : Runtime) (eb n : Nat) (il : Nat → Nat) : Prop where
  apart : ∀ k l, k < n → l < n → il k = il l → k = l
  layer : ∀ l, l < n → ∃ L, rt.remapped (il l) = some L ∧ L.bytes = eb

structure Followed (rt : Runtime) (nExpert n : Nat) (il : Nat → Nat) (c : ExpertCache)
    (r : State × Nat) : Prop where
  together : Together c n fun l => (prepare rt r.1 (il l)).cache (il l)
  experts : c.cfg.nExpert = nExpert
  counted : ∀ l, l < n → Counted rt nExpert r.1 (il l)
  stage : r.1.stage = 0 ∨ r.1.stage = rt.maxb * 3 * 32
  hit : r.1.hits rt = c.st.hit
  miss : r.1.misses rt = c.st.miss
  bytes : r.2 = c.st.bytesFetched

theorem remapped_lt {j : Nat} {L : LayerSlabs} (found : rt.remapped j = some L) :
    j < rt.nCache := by
  simp only [Runtime.remapped] at found
  split at found
  · cases found
  · rename_i inside
    omega

theorem Followed.row (followed : Followed rt nExpert n il c r) (product : Product rt nExpert)
    (placed : Placed rt eb n il) (layer : l < n) (inside : ∀ e ∈ es, e < nExpert) (io : Io)
    {call : Call} (own : call.il = il l) (decodes : call.Decodes es) :
    Followed rt nExpert n il (replayRow eb c l es) (remapIo rt r (io, call)) := by
  obtain ⟨L, found, width⟩ := placed.layer l layer
  have counted := followed.counted l layer
  have single := followed.together.single l layer
  have alike := followed.together.alike l layer
  have eighth : call.pass < 8 := by
    rw [decodes.pass]
    decide
  rw [← own] at found counted
  have called := remap_row io counted product found followed.stage decodes inside
  have row : RowTogether c n l eb L.bytes _ es :=
    followed.together.row layer (by rw [followed.experts]; exact inside)
  have other := fun j (apart : j ≠ call.il) => remap_other (s := r.1) io found eighth apart
  have dropped : ((prepare rt r.1 call.il).cache call.il).st = (r.1.cache call.il).st := by
    rw [prepare_own]
    apply (releases_dropped _ _).st
    rw [counted.experts]
    exact counted.heldIn
  have served : (prepare rt (remap rt io r.1 call).state call.il).cache call.il =
      rowServed L.bytes ((prepare rt r.1 call.il).cache call.il) es := by
    rw [prepare_own, called.cache, called.held]
    rfl
  have small : ∀ e ∈ es, e < ((prepare rt r.1 (il l)).cache (il l)).cfg.nExpert := by
    rw [alike.experts, followed.experts]
    exact inside
  have gained := ((Single.apportioned single).requests single.layer L.bytes es small).gained
  have answers := row.answers
  rw [← own] at gained answers
  rw [← called.cache, dropped, ← answers] at gained
  have inCaches := remapped_lt found
  refine ⟨?_, ?_, ?_, remap_stage io followed.stage, ?_, ?_, ?_⟩
  · apply row.together.congr
    intro k other'
    simp only [remapIo]
    by_cases same : k = l
    · subst same
      rw [Function.update_self, ← own, served]
    · have apart : il k ≠ call.il := fun equal =>
        same (placed.apart k l other' layer (equal.trans own))
      obtain ⟨cache, held⟩ := other (il k) apart
      rw [Function.update_of_ne same, prepare_own, prepare_own, cache, held]
  · rw [row.experts]
    exact followed.experts
  · intro k other'
    obtain ⟨L', found', -⟩ := placed.layer k other'
    have sized := remapped_layer found'
    exact (followed.counted k other').remap io found' (product.same _ L' sized)
      (product.kept _ L' sized) eighth
  · rw [row.gained.hit, ← followed.hit]
    exact sum_changed inCaches (fun j apart => by rw [← (other j apart).1]; rfl) gained.hit
  · rw [row.gained.miss, ← followed.miss]
    exact sum_changed inCaches (fun j apart => by rw [← (other j apart).1]; rfl) gained.miss
  · simp only [remapIo]
    rw [found, Option.map_some, Option.getD_some, row.gained.bytes, followed.bytes, called.bytes,
      answers, width]

theorem Followed.token (followed : Followed rt nExpert tr.nMoe il c r)
    (product : Product rt nExpert) (placed : Placed rt eb tr.nMoe il) (t : Nat)
    (inside : ∀ l, ∀ e ∈ tr.row t l, e < nExpert) (io : Nat → Io) {ids : Nat → Ids}
    (decoded : ∀ l, l < tr.nMoe → (ids l).list = (tr.row t l).map fun e : Nat => (e : Int)) :
    Followed rt nExpert tr.nMoe il (replayToken tr eb c t)
      (((List.range tr.nMoe).map fun l => (io l, (⟨il l, 0, 1, ids l⟩ : Call))).foldl
        (remapIo rt) r) := by
  have rows : Followed rt nExpert tr.nMoe il
      ((List.range tr.nMoe).foldl (fun c l => replayRow eb c l (tr.row t l)) c)
      ((List.range tr.nMoe).foldl (fun r l => remapIo rt r (io l, ⟨il l, 0, 1, ids l⟩)) r) := by
    apply List.foldl_rel followed
    intro l member c r followed
    have layer := List.mem_range.mp member
    exact followed.row product placed layer (inside l) (io l) rfl ⟨rfl, rfl, decoded l layer⟩
  obtain ⟨cfg, st⟩ := endStep_kept rows.together.static
  rw [List.foldl_map]
  simp only [replayToken]
  refine ⟨rows.together.endStep, ?_, rows.counted, rows.stage, ?_, ?_, ?_⟩
  · rw [cfg]
    exact rows.experts
  · rw [st]
    exact rows.hit
  · rw [st]
    exact rows.miss
  · rw [st]
    exact rows.bytes

/-! ## The three agree -/

theorem loadTrace_some {file : Foundation.ByteReader.Bytes} (loaded : loadTrace file = some tr) :
    0 < tr.nMoe ∧ tr.ids ≠ [] := by
  unfold loadTrace at loaded
  split at loaded
  · cases loaded
  · split at loaded
    · cases loaded
    · dsimp only at loaded
      split at loaded
      · cases loaded
      · rename_i sizes
        split at loaded
        · rename_i tokens
          cases loaded
          refine ⟨Nat.pos_of_ne_zero fun none => sizes ?_, ?_⟩
          · dsimp only at none
            rw [none, Nat.zero_mul]
          intro empty
          dsimp only at empty
          rw [empty, List.length_nil, Nat.zero_div] at tokens
          exact absurd tokens (Nat.lt_irrefl 0)
        · cases loaded

/-- With the slots of the runtime, nothing pinned and fixed quotas, the replay of a
trace and the policy comparison report the hits and misses of the runtime decoding
the same tokens, and the replay the bytes it reads. -/
theorem replay_predicts {file : Foundation.ByteReader.Bytes} (loaded : loadTrace file = some tr)
    {frac : ℚ} (slots : (init (tr.config frac 0 false)).nSlot = tr.nMoe * rt.nSlots)
    (product : Product rt tr.nExpert) (placed : Placed rt eb tr.nMoe il)
    (io : Nat → Nat → Io) {ids : Nat → Nat → Ids}
    (decoded : ∀ t l, t < tr.nToken → l < tr.nMoe →
      (ids t l).list = (tr.row t l).map fun e : Nat => (e : Int))
    (mem : Memory) (order : Nat → List Nat) :
    let c := replay tr eb frac 0 false order
    let r := (decodeCalls tr il io ids).foldl (remapIo rt) (State.start rt tr.nExpert mem, 0)
    let p := simS3fifo tr rt.nSlots
    (r.1.hits rt = c.st.hit ∧ r.1.misses rt = c.st.miss ∧ r.2 = c.st.bytesFetched) ∧
      p.hit = c.st.hit ∧ p.miss = c.st.miss := by
  obtain ⟨layers, some⟩ := loadTrace_some loaded
  have experts : tr.nExpert = tr.nExpertSim := Trace.nExpert_eq some
  have inside : ∀ t l, ∀ e ∈ tr.row t l, e < tr.nExpert := by
    rw [experts]
    exact fun t l e member => Trace.row_lt member
  have positive := product.positive
  have few : ∀ n : Nat, (init { nLayer := 1, nExpert := n, nSlot := rt.nSlots, pinRatio := 0
                                layerQuotaAdapt := false }).nSlot = rt.nSlots := fun n =>
    (if_pos (Nat.ne_of_gt positive)).trans (u32_eq product.slots)
  have start : ∀ n, n = tr.nExpert → Together (init (tr.config frac 0 false)) tr.nMoe fun _ =>
      init { nLayer := 1, nExpert := n, nSlot := rt.nSlots, pinRatio := 0
             layerQuotaAdapt := false } := by
    intro n same
    exact Together.start rfl layers slots _ (fun _ => rfl) (fun _ => same) (fun _ => rfl)
      fun _ => few n
  have unpinned : ¬(0 : ℚ) < 0 := lt_irrefl 0
  intro c r p
  refine ⟨?_, ?_⟩
  · have followed : Followed rt tr.nExpert tr.nMoe il c r := by
      have begun : Followed rt tr.nExpert tr.nMoe il (init (tr.config frac 0 false))
          (State.start rt tr.nExpert mem, 0) := by
        refine ⟨?_, rfl, fun l _ => Counted.start product.shaped mem (il l), Or.inl rfl, ?_, ?_, rfl⟩
        · apply (start (u32 tr.nExpert) (u32_eq product.experts)).congr
          intro l _
          rw [prepare_own]
          rfl
        · exact Finset.sum_eq_zero fun _ _ => rfl
        · exact Finset.sum_eq_zero fun _ _ => rfl
      show Followed rt tr.nExpert tr.nMoe il (replay tr eb frac 0 false order)
        ((decodeCalls tr il io ids).foldl (remapIo rt) (State.start rt tr.nExpert mem, 0))
      simp only [replay, decodeCalls]
      rw [if_neg unpinned, List.foldl_flatMap]
      apply List.foldl_rel begun
      intro t member c r followed
      exact followed.token product placed t (inside t) (io t)
        fun l => decoded t l (List.mem_range.mp member)
    exact ⟨followed.hit, followed.miss, followed.bytes⟩
  · have compared : Compared tr c p := by
      show Compared tr (replay tr eb frac 0 false order) (simS3fifo tr rt.nSlots)
      simp only [replay, simS3fifo]
      rw [if_neg unpinned]
      apply List.foldl_rel ⟨start _ experts.symm, experts, rfl, rfl⟩
      intro t _ c p compared
      exact compared.token t
    exact ⟨compared.hit, compared.miss⟩

def pairFile : Foundation.ByteReader.Bytes :=
  ([magic, 1, 1, 0, 2, 2, 0, 1].flatMap (Foundation.ByteReader.toBytes 4)) ++
    putWords [0, 1, 0, 0, 0, 1, 0, 0]

def pairTrace : Trace := ⟨1, 2, 2, [0, 1, 0, 1]⟩

theorem pairTrace_placed : Placed pairRuntime 3 pairTrace.nMoe fun _ => 0 where
  apart := fun k l below below' _ => by
    have one : pairTrace.nMoe = 1 := rfl
    omega
  layer := fun _ _ => ⟨_, rfl, rfl⟩

/-- The layer has one slot: the second expert of a token is refused. -/
theorem replay_predicts_pair :
    ((decodeCalls pairTrace (fun _ => 0) (fun _ _ => Io.whole) fun _ _ => pairCall.ids).foldl
      (remapIo pairRuntime) (State.start pairRuntime 2 fun _ => 0, 0)).2 =
      (replay pairTrace 3 (1 / 2) 0 false fun _ => []).st.bytesFetched := by
  have slots : (init (pairTrace.config (1 / 2) 0 false)).nSlot = 1 := by
    decide +kernel
  have decoded : ∀ t, t < pairTrace.nToken → ∀ l, l < pairTrace.nMoe →
      pairCall.ids.list = (pairTrace.row t l).map fun e : Nat => (e : Int) := by decide
  have predicts := @replay_predicts 3 pairTrace pairRuntime (fun _ => 0) pairFile rfl (1 / 2) slots
    pairRuntime_product pairTrace_placed (fun _ _ => Io.whole)
    (fun _ _ => pairCall.ids) (fun t l token => decoded t token l)
    (fun _ => 0) fun _ => []
  exact predicts.1.2.2

end MoeStream.ExpertTrace
