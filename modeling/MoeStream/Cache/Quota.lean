import Mathlib.Algebra.BigOperators.Group.Finset.Basic
import Mathlib.Data.Rat.Floor
import MoeStream.Cache.Model

/-!
# Quotas, pinning and runs of the expert cache

The operations of `expert_cache.cpp` outside the request path: the pinned set
built from calibration statistics, the end of a step and the reallocation of
the per-layer quotas.  A run is a list of operations applied in order.
-/

set_option autoImplicit false

namespace MoeStream

open Foundation.FixedWidth

namespace ExpertCache

/-! ## The pinned set -/

def pinPerLayer (cfg : Config) : Nat :=
  max 1 (u32 (truncate (cfg.round (cfg.round (cfg.nExpert * cfg.pinRatio) + 1 / 2))).toNat)

/-- What `std::partial_sort` promises about `order`: the first `k` experts come
by falling frequency and none of the others is more frequent; ties and the
rest of the order are unspecified. -/
structure PartialSorted (freq : List Nat) (base n k : Nat) (order : List Nat) : Prop where
  perm : order.Perm (List.range n)
  sorted : ∀ i j, i < j → i < k → ∀ a b, order[i]? = some a → order[j]? = some b →
    freq.getD (base + b) 0 ≤ freq.getD (base + a) 0

def pin (c : ExpertCache) (l e s : Nat) (rest : List Nat) : ExpertCache :=
  let ls := c.lay l
  let c := { c with free := rest }
  let c := c.setTable l e s
  let c := c.setEntry l e
    { c.entry l e with slot := s, seg := .pinned, resident := true }
  c.setLayer l { ls with pinned := ls.pinned + 1, resident := ls.resident + 1 }

/-- The inner loop of `build_pinned`, which stops when no slot is free. -/
def pinLayer (l : Nat) : List Nat → ExpertCache → ExpertCache
  | [], c => c
  | e :: rest, c =>
      match c.free with
      | [] => c
      | s :: free =>
          if (c.entry l e).seg ≠ .none then pinLayer l rest c
          else pinLayer l rest (c.pin l e s free)

/-- `order l` is what `partial_sort` left for layer `l`. -/
def buildPinned (c : ExpertCache) (freq : List Nat) (order : Nat → List Nat) :
    ExpertCache :=
  if c.cfg.pinRatio ≤ 0 ∨ freq.length ≠ c.total then c
  else
    (List.range c.cfg.nLayer).foldl
      (fun c l => pinLayer l ((order l).take (pinPerLayer c.cfg)) c) c

/-! ## Quota reallocation -/

def clearGhostHits (c : ExpertCache) : ExpertCache :=
  { c with lay := fun l => { c.lay l with ghostHits := 0 } }

/-- `for (l = 0; sum < n_slot; ++l) { nq[l % n_layer]++; sum++; }` with
`missing` turns left. -/
def fillQuota (nLayer : Nat) : Nat → Nat → (Nat → Int) → Nat → Int
  | 0, _, nq => nq
  | missing + 1, l, nq =>
      fillQuota nLayer missing (l + 1)
        (Function.update nq (l % nLayer) (nq (l % nLayer) + 1))

def rebalanceQuota (c : ExpertCache) : ExpertCache :=
  let n := c.cfg.nLayer
  let round := c.cfg.round
  let hits : Nat → ℚ := fun l => (c.lay l).ghostHits
  let mean := round ((∑ l ∈ Finset.range n, hits l) / n)
  if mean ≤ 0 then c.clearGhostHits
  else
    let delta : Nat → ℚ := fun l =>
      round (round (round (c.cfg.quotaEta * round (hits l - mean)) / mean) * c.quota l)
    let clamped : Nat → Int := fun l =>
      min (max ((c.quota l : Int) +
        truncate (round (delta l + if 0 ≤ delta l then 1 / 2 else -1 / 2))) c.cfg.quotaMin)
        c.cfg.nExpert
    let scale : ℚ := round (c.nSlot / ((∑ l ∈ Finset.range n, clamped l : Int) : ℚ))
    let scaled : Nat → Int := fun l =>
      max c.cfg.quotaMin (truncate (round (clamped l * scale)))
    let missing := (c.nSlot : Int) - ∑ l ∈ Finset.range n, scaled l
    let nq := fillQuota n missing.toNat 0 scaled
    { c.clearGhostHits with quota := fun l => u32 (nq l).toNat }

def endStep (c : ExpertCache) : ExpertCache :=
  let c := { c with step := u32 (c.step + 1) }
  if c.cfg.layerQuotaAdapt ∧ c.step % c.cfg.quotaPeriod = 0 then c.rebalanceQuota else c

/-! ## Runs -/

inductive Op where
  | acquire (layer expert : Nat) (origin : Origin)
  | markResident (layer expert nbytes : Nat)
  | release (layer expert : Nat)
  | endStep
  | buildPinned (freq : List Nat) (order : Nat → List Nat)

def apply (c : ExpertCache) : Op → ExpertCache
  | .acquire layer expert origin => (c.acquire layer expert origin).1
  | .markResident layer expert nbytes => c.markResident layer expert nbytes
  | .release layer expert => c.release layer expert
  | .endStep => c.endStep
  | .buildPinned freq order => c.buildPinned freq order

def run (c : ExpertCache) (ops : List Op) : ExpertCache := ops.foldl apply c

/-- Layers and experts are in range, and the orders handed to `build_pinned`
are ones `partial_sort` may produce. -/
def Op.InRange (cfg : Config) : Op → Prop
  | .acquire layer expert _ => layer < cfg.nLayer ∧ expert < cfg.nExpert
  | .markResident layer expert _ => layer < cfg.nLayer ∧ expert < cfg.nExpert
  | .release layer expert => layer < cfg.nLayer ∧ expert < cfg.nExpert
  | .endStep => True
  | .buildPinned freq order => ∀ l, l < cfg.nLayer →
      PartialSorted freq (l * cfg.nExpert) cfg.nExpert (pinPerLayer cfg) (order l)

end ExpertCache

end MoeStream
