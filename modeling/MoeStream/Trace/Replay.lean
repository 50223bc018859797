import MoeStream.Cache.Rows
import MoeStream.Trace.Format

/-!
# Offline replays of a trace

Embedding of the replay of a trace through one cache for all layers, and of
`sim_s3fifo` of the policy comparison, which gives every layer a cache of its
own.  With equal quotas and nothing pinned both see the same hits and misses, row
by row.
-/

set_option autoImplicit false

namespace MoeStream.ExpertTrace

open ExpertCache Foundation.FixedWidth

/-! ## The replay -/

/-- `n_expert`, one more than the largest id. -/
def Trace.nExpert (tr : Trace) : Nat := tr.ids.foldl (fun n v => max n (v + 1)) 0

def Trace.config (tr : Trace) (frac pin : ℚ) (adapt : Bool) : Config :=
  { nLayer := tr.nMoe, nExpert := tr.nExpert, cacheFrac := frac, pinRatio := pin
    layerQuotaAdapt := adapt }

def Trace.calibration (tr : Trace) : List Nat :=
  (List.range (max 1 (tr.nToken / 10))).foldl
    (fun freq t => (List.range tr.nMoe).foldl
      (fun freq l => (tr.row t l).foldl
        (fun freq e => freq.modify (l * tr.nExpert + e) fun n => u32 (n + 1)) freq) freq)
    (List.replicate (tr.nMoe * tr.nExpert) 0)

/-- A row: every expert is requested, read if it missed and got a slot, and at the
end released, also when it was refused. -/
def replayRow (eb : Nat) (c : ExpertCache) (l : Nat) (row : List Nat) : ExpertCache :=
  (c.requests l eb row).releases l row

def replayToken (tr : Trace) (eb : Nat) (c : ExpertCache) (t : Nat) : ExpertCache :=
  ((List.range tr.nMoe).foldl (fun c l => replayRow eb c l (tr.row t l)) c).endStep

/-- The cache `main` prints, `order` being what `partial_sort` left. -/
def replay (tr : Trace) (eb : Nat) (frac pin : ℚ) (adapt : Bool) (order : Nat → List Nat) :
    ExpertCache :=
  let c := init (tr.config frac pin adapt)
  let c := if 0 < pin then c.buildPinned tr.calibration order else c
  (List.range tr.nToken).foldl (replayToken tr eb) c

/-! ## The policy comparison -/

/-- `n_expert` of `load_trace`. -/
def Trace.nExpertSim (tr : Trace) : Nat := tr.ids.foldl max 0 + 1

/-- The cache of a layer, its `held` and the counts. -/
structure SimRow where
  cache : ExpertCache
  held : List Nat
  hit : Nat
  miss : Nat

def simRequest (nExpert : Nat) (r : SimRow) (e : Nat) : SimRow :=
  if nExpert ≤ e then r
  else
    let (cache, h, slot) := r.cache.acquire 0 e .demand
    if slot = NO_SLOT then { r with cache := cache, miss := r.miss + 1 }
    else if h then { r with cache := cache, hit := r.hit + 1, held := r.held ++ [e] }
    else
      { r with
        cache := cache.markResident 0 e 1
        miss := r.miss + 1
        held := r.held ++ [e] }

structure PolicySim where
  cache : Nat → ExpertCache
  hit : Nat
  miss : Nat

def simLayer (tr : Trace) (t : Nat) (p : PolicySim) (l : Nat) : PolicySim :=
  let r := (tr.row t l).foldl (simRequest tr.nExpertSim) ⟨p.cache l, [], p.hit, p.miss⟩
  { cache := Function.update p.cache l (r.cache.releases 0 r.held), hit := r.hit, miss := r.miss }

/-- `sim_s3fifo`, which returns the hits over hits and misses. -/
def simS3fifo (tr : Trace) (slots : Nat) : PolicySim :=
  (List.range tr.nToken).foldl (fun p t => (List.range tr.nMoe).foldl (simLayer tr t) p)
    { cache := fun _ => init
        { nLayer := 1, nExpert := tr.nExpertSim, nSlot := slots, pinRatio := 0
          layerQuotaAdapt := false }
      hit := 0
      miss := 0 }

/-! ## Rows of a trace -/

theorem foldl_max_le (ids : List Nat) (m : Nat) :
    m ≤ ids.foldl max m ∧ ∀ v ∈ ids, v ≤ ids.foldl max m := by
  induction ids generalizing m with
  | nil => exact ⟨Nat.le_refl m, nofun⟩
  | cons v rest ih =>
      obtain ⟨low, members⟩ := ih (max m v)
      refine ⟨Nat.le_trans (Nat.le_max_left m v) low, ?_⟩
      intro w member
      rcases List.mem_cons.mp member with rfl | later
      · exact Nat.le_trans (Nat.le_max_right m w) low
      · exact members w later

theorem Trace.nExpert_eq {tr : Trace} (some : tr.ids ≠ []) : tr.nExpert = tr.nExpertSim := by
  have later : ∀ (ids : List Nat) (m : Nat),
      ids.foldl (fun n v => max n (v + 1)) (m + 1) = ids.foldl max m + 1 := by
    intro ids
    induction ids with
    | nil => exact fun _ => rfl
    | cons v rest ih =>
        intro m
        rw [List.foldl_cons, List.foldl_cons, ← ih]
        exact congrArg (List.foldl _ · rest) (Nat.succ_max_succ m v)
  simp only [Trace.nExpert, Trace.nExpertSim]
  cases ids : tr.ids with
  | nil => exact absurd ids some
  | cons v rest =>
      rw [List.foldl_cons, List.foldl_cons, ← later, Nat.zero_max, Nat.zero_max]

theorem Trace.row_lt {tr : Trace} {g l e : Nat} (member : e ∈ tr.row g l) :
    e < tr.nExpertSim :=
  Nat.lt_succ_of_le ((foldl_max_le tr.ids 0).2 e (List.mem_of_mem_drop (List.mem_of_mem_take member)))

structure SimmedRow (row : List Nat) (r q : SimRow) : Prop where
  cache : q.cache = r.cache.requests 0 1 row
  held : q.held = r.held ++ granted 0 1 r.cache row
  hit : q.hit = r.hit + (answered 0 1 r.cache row).count .hit
  miss : q.miss = r.miss + (answered 0 1 r.cache row).countP (· ≠ .hit)

theorem simRequest_one {nExpert e : Nat} {r : SimRow} (single : r.cache.Single)
    (experts : r.cache.cfg.nExpert = nExpert) (inside : e < nExpert) :
    SimmedRow [e] r (simRequest nExpert r e) := by
  have known : ¬nExpert ≤ e := Nat.not_le_of_lt inside
  cases single.ok.replied single.layer (e := e) (by rw [experts]; exact inside) 1 with
  | hit found named outcome after =>
      constructor <;>
        simp [simRequest, requests, known, found, named, after, answered, granted, outcome]
  | admitted missed named outcome after =>
      constructor <;>
        simp [simRequest, requests, known, missed, named, after, answered, granted, outcome]
  | refused missed unnamed outcome after =>
      constructor <;>
        simp [simRequest, requests, known, unnamed, after, answered, granted, outcome]

theorem simRequest_row {nExpert : Nat} {r : SimRow} (single : r.cache.Single) (row : List Nat)
    (experts : r.cache.cfg.nExpert = nExpert) (inside : ∀ e ∈ row, e < nExpert) :
    SimmedRow row r (row.foldl (simRequest nExpert) r) := by
  induction row generalizing r with
  | nil => exact ⟨rfl, (List.append_nil _).symm, rfl, rfl⟩
  | cons e rest ih =>
      have here := inside e List.mem_cons_self
      have first := simRequest_one single experts here
      obtain ⟨next, cfg⟩ := Single.request single (e := e) (by rw [experts]; exact here) 1
      have cache : (simRequest nExpert r e).cache = r.cache.request 0 1 e := first.cache
      obtain ⟨same, held, hit, miss⟩ := ih (r := simRequest nExpert r e)
        (by rw [cache]; exact next) (by rw [cache, cfg, experts])
        (fun k member => inside k (List.mem_cons_of_mem e member))
      rw [cache] at same held hit miss
      have split : answered 0 1 r.cache (e :: rest) =
          answered 0 1 r.cache [e] ++ answered 0 1 (r.cache.request 0 1 e) rest := rfl
      refine ⟨same, ?_, ?_, ?_⟩
      · rw [List.foldl_cons, held, first.held, List.append_assoc]
        exact congrArg (r.held ++ ·) (congrArg (· ++ _) (List.append_nil _))
      · rw [List.foldl_cons, hit, first.hit, split, List.count_append, Nat.add_assoc]
      · rw [List.foldl_cons, miss, first.miss, split, List.countP_append, Nat.add_assoc]

end MoeStream.ExpertTrace
