import Mathlib.Data.List.Basic
import Mathlib.Logic.Function.Iterate
import MoeStream.Foundation.FloatFormat

/-!
# The prefill rate of whole requests

Embedding of the request-level accounting of `llama-moestream.cpp`:
`prefill_exps` at graph construction, `load_layer_arena`, `ms_pfload_fn` and
`ms_remap_fn` as a graph is computed, `pf_req_close` and `prefill_rate`.  A
micro-batch reads the clock for this accounting at the first layer only.
-/

set_option autoImplicit false

namespace MoeStream.PrefillRate

open Foundation.FloatFormat

/-! ## Program state -/

/-- The globals `g_req_*`, `g_pf_*_total`, `g_pf_intervals` and `g_pf_first_*`. -/
structure Account where
  reqT0 : ℚ
  reqTok : Nat
  timeTotal : ℚ
  tokTotal : Nat
  intervals : Nat
  firstTime : ℚ
  firstTok : Nat
deriving DecidableEq

/-- The op that maps the ids of `nt` tokens in one layer: the arena load, or the
slab remap in one pass or several. -/
inductive IdsOp
  | load (il nt : Nat)
  | remap (il nt passes : Nat)
deriving DecidableEq

/-- The tokens of a micro-batch, and those left in the last layer: it is
computed for the outputs asked for only. -/
structure Shape where
  nTokens : Nat
  nLast : Nat
deriving DecidableEq

structure Graph where
  shape : Shape
  ops : List IdsOp
deriving DecidableEq

/-- `pfFirstIl` is `none` where the source has `-1`. -/
structure State where
  finalized : Bool
  graph : Graph
  pfNtokSeen : Nat
  pfFirstIl : Option Nat
  account : Account
deriving DecidableEq

/-- What is fixed before the first micro-batch: the keys of `g_layers`, the
threshold, the outcome of the arena allocation, `g_pf_async && g_pf_nbuf >= 2`
and `n_passes`. -/
structure Setup where
  layers : List Nat
  threshold : Nat
  arena : Bool
  async : Bool
  nPasses : Nat → Nat
  ascending : layers.Pairwise (· < ·)
  layers_ne_nil : layers ≠ []
  one_le_nPasses : ∀ n, 1 ≤ nPasses n

def Account.init : Account :=
  { reqT0 := 0, reqTok := 0, timeTotal := 0, tokTotal := 0, intervals := 0,
    firstTime := 0, firstTok := 0 }

def State.init : State :=
  { finalized := false, graph := ⟨⟨0, 0⟩, []⟩, pfNtokSeen := 0, pfFirstIl := none,
    account := Account.init }

/-! ## Closing a request -/

namespace Account

/-- `pf_req_close` at the time `now`. -/
def pfReqClose (now : ℚ) (a : Account) : Account :=
  if a.reqT0 ≤ 0 ∨ a.reqTok = 0 then a
  else
    let dt := double (now - a.reqT0)
    let tok := a.reqTok
    let a := { a with reqT0 := 0, reqTok := 0 }
    if ¬(0 < dt ∧ dt < 3600) then a
    else
      let a := if a.intervals = 0 then { a with firstTime := dt, firstTok := tok } else a
      { a with
        timeTotal := double (a.timeTotal + dt)
        tokTotal := a.tokTotal + tok
        intervals := a.intervals + 1 }

/-- The token numerator of `prefill_rate`. -/
def prefillTokens (a : Account) : Nat :=
  if 2 ≤ a.intervals then a.tokTotal - a.firstTok else a.tokTotal

def prefillSeconds (a : Account) : ℚ :=
  if 2 ≤ a.intervals then double (a.timeTotal - a.firstTime) else a.timeTotal

def prefillRate (a : Account) : ℚ :=
  if 0 < a.prefillSeconds ∧ 0 < a.prefillTokens then
    double (double a.prefillTokens / a.prefillSeconds)
  else 0

/-- What `load_layer_arena` does to the account at the start of a pass. -/
def startPass (now : ℚ) (ntok : Nat) (a : Account) : Account :=
  { a with
    reqT0 := if a.reqT0 = 0 then now else a.reqT0
    reqTok := a.reqTok + ntok }

/-- The guard on the span of the request, from `t0` to `now`. -/
def Credible (t0 now : ℚ) : Prop := 0 < double (now - t0) ∧ double (now - t0) < 3600

instance (t0 now : ℚ) : Decidable (Credible t0 now) := inferInstanceAs (Decidable (_ ∧ _))

def Closed (a : Account) : Prop := a.reqT0 = 0 ∧ a.reqTok = 0

theorem pfReqClose_of_closed {a : Account} (closed : a.Closed) (now : ℚ) :
    a.pfReqClose now = a := by
  rw [pfReqClose, if_pos (Or.inr closed.2)]

section Running

variable {a : Account} (started : 0 < a.reqT0) (tokens : 0 < a.reqTok) (now : ℚ)
include started tokens

theorem running_of_pos : ¬(a.reqT0 ≤ 0 ∨ a.reqTok = 0) := by
  rw [not_or]
  exact ⟨not_le.mpr started, Nat.pos_iff_ne_zero.mp tokens⟩

theorem closed_pfReqClose_of_pos : (a.pfReqClose now).Closed := by
  rw [pfReqClose, if_neg (running_of_pos started tokens)]
  dsimp only
  split
  · exact ⟨rfl, rfl⟩
  · split <;> exact ⟨rfl, rfl⟩

theorem pfReqClose_of_credible (credible : Credible a.reqT0 now) :
    (a.pfReqClose now).tokTotal = a.tokTotal + a.reqTok ∧
      (a.pfReqClose now).intervals = a.intervals + 1 ∧
      (a.pfReqClose now).firstTok = if a.intervals = 0 then a.reqTok else a.firstTok := by
  rw [Credible] at credible
  rw [pfReqClose, if_neg (running_of_pos started tokens)]
  dsimp only
  rw [if_neg (not_not.mpr credible)]
  split <;> exact ⟨rfl, rfl, rfl⟩

end Running

@[simp] theorem pfReqClose_pfReqClose (a : Account) (now : ℚ) :
    (a.pfReqClose now).pfReqClose now = a.pfReqClose now := by
  by_cases idle : a.reqT0 ≤ 0 ∨ a.reqTok = 0
  · have same : a.pfReqClose now = a := by rw [pfReqClose, if_pos idle]
    rw [same, same]
  · rw [not_or] at idle
    exact pfReqClose_of_closed (closed_pfReqClose_of_pos (not_le.mp idle.1)
      (Nat.pos_of_ne_zero idle.2) now) now

end Account

/-! ## Graph construction -/

variable (s : Setup)

/-- `prefill_exps`; whether the tensor of the role is returned. -/
def prefillExps (st : State) (il nTokens : Nat) : Bool × State :=
  if ¬(st.finalized ∧ s.arena) ∨ nTokens ≤ s.threshold then (false, st)
  else if il ∉ s.layers then (false, st)
  else (true, { st with pfNtokSeen := nTokens })

/-- `n_tokens` of `build_moe_ffn` in layer `il`. -/
def Setup.width (shape : Shape) (il : Nat) : Nat :=
  if s.layers.getLast? = some il then shape.nLast else shape.nTokens

/-- The part of `build_moe_ffn` that selects the path of layer `il`. -/
def buildMoeFfn (shape : Shape) (st : State) (il : Nat) : State :=
  let nTokens := s.width shape il
  let msG := prefillExps s st il nTokens
  let msU := prefillExps s msG.2 il nTokens
  let msD := prefillExps s msU.2 il nTokens
  let op := if msG.1 && msU.1 && msD.1 then .load il nTokens
    else .remap il nTokens (s.nPasses nTokens)
  { msD.2 with graph := { msD.2.graph with ops := msD.2.graph.ops ++ [op] } }

def buildGraph (st : State) (shape : Shape) : State :=
  s.layers.foldl (buildMoeFfn s shape) { st with graph := ⟨shape, []⟩ }

/-! ## Graph computation -/

/-- `load_layer_arena`, up to the accounting.  The thread of `pf_kick` is
joined before the next load, and does not start a pass. -/
def loadLayerArena (now : ℚ) (st : State) (il : Nat) : State :=
  if ¬(st.finalized ∧ s.arena) then st
  else
    let st := if st.pfFirstIl = none then { st with pfFirstIl := some il } else st
    if st.pfFirstIl = some il then
      { st with account := st.account.startPass now st.pfNtokSeen }
    else st

def pfKick (now : ℚ) (st : State) (il : Nat) : State :=
  if ¬s.async then st
  else if il ∉ s.layers then st
  else loadLayerArena s now st il

def msPfload (now : ℚ) (nt : Nat) (st : State) (il : Nat) : State :=
  let st := loadLayerArena s now st il
  if s.async ∧ 256 ≤ nt then pfKick s now st (il + 1) else st

/-- `ms_remap_fn`: the first call finalizes. -/
def msRemap (now : ℚ) (nt il : Nat) (st : State) : State :=
  let st := { st with finalized := true }
  if s.layers.head? = some il ∧ nt = 1 then
    { st with account := st.account.pfReqClose now }
  else st

def computeOp (now : ℚ) (st : State) : IdsOp → State
  | .load il nt => msPfload s now nt st il
  | .remap il nt passes => (msRemap s now nt il)^[passes] st

def computeGraph (now : ℚ) (st : State) : State := st.graph.ops.foldl (computeOp s now) st

/-- One micro-batch: the graphs built since the one before, reserved ones
included and none where the last is reused, its shape and its time. -/
structure Ubatch where
  built : List Shape
  shape : Shape
  now : ℚ
deriving DecidableEq

def ubatch (st : State) (u : Ubatch) : State :=
  computeGraph s u.now (u.built.foldl (buildGraph s) st)

def run (st : State) (us : List Ubatch) : State := us.foldl (ubatch s) st

def GraphsFit : Shape → List Ubatch → Prop
  | _, [] => True
  | last, u :: rest =>
      (0 < u.shape.nTokens ∧ u.shape.nLast ≤ u.shape.nTokens) ∧
        u.built.getLastD last = u.shape ∧ GraphsFit u.shape rest

instance (last : Shape) (us : List Ubatch) : Decidable (GraphsFit last us) := by
  induction us generalizing last with
  | nil => exact isTrue trivial
  | cons u rest ih => exact inferInstanceAs (Decidable (_ ∧ _ ∧ _))

/-! ## What construction leaves -/

variable {s}

theorem Setup.first_lt (s : Setup) {first : Nat} {rest : List Nat}
    (layers : s.layers = first :: rest) : ∀ il ∈ rest, first < il := by
  have ascending := s.ascending
  rw [layers, List.pairwise_cons] at ascending
  exact ascending.1

def Setup.takes (s : Setup) (finalized : Bool) (nTokens : Nat) : Bool :=
  finalized && s.arena && decide (s.threshold < nTokens)

def idsOp (s : Setup) (shape : Shape) (finalized : Bool) (il : Nat) : IdsOp :=
  if s.takes finalized (s.width shape il) then .load il (s.width shape il)
  else .remap il (s.width shape il) (s.nPasses (s.width shape il))

def seenStep (s : Setup) (shape : Shape) (finalized : Bool) (seen il : Nat) : Nat :=
  if s.takes finalized (s.width shape il) then s.width shape il else seen

theorem prefillExps_eq {st : State} {il nTokens : Nat} (member : il ∈ s.layers) :
    prefillExps s st il nTokens =
      if s.takes st.finalized nTokens then (true, { st with pfNtokSeen := nTokens })
      else (false, st) := by
  have guard : (¬(st.finalized ∧ s.arena) ∨ nTokens ≤ s.threshold) ↔
      ¬s.takes st.finalized nTokens = true := by
    rw [Setup.takes, Bool.and_eq_true, Bool.and_eq_true, decide_eq_true_eq, ← not_le]
    exact (not_and_or.trans (or_congr_right not_not)).symm
  simp only [prefillExps, guard, not_not.mpr member, if_false]
  exact ite_not _ _ _

theorem buildMoeFfn_eq {st : State} {il : Nat} {shape : Shape} (member : il ∈ s.layers) :
    buildMoeFfn s shape st il =
      { st with
        pfNtokSeen := seenStep s shape st.finalized st.pfNtokSeen il
        graph := ⟨st.graph.shape, st.graph.ops ++ [idsOp s shape st.finalized il]⟩ } := by
  cases takes : s.takes st.finalized (s.width shape il) <;>
    simp [buildMoeFfn, prefillExps_eq member, takes, idsOp, seenStep]

theorem foldl_buildMoeFfn {shape : Shape} (ils : List Nat) (st : State)
    (members : ∀ il ∈ ils, il ∈ s.layers) :
    ils.foldl (buildMoeFfn s shape) st =
      { st with
        pfNtokSeen := ils.foldl (seenStep s shape st.finalized) st.pfNtokSeen
        graph := ⟨st.graph.shape, st.graph.ops ++ ils.map (idsOp s shape st.finalized)⟩ } := by
  induction ils generalizing st with
  | nil => simp
  | cons il rest ih =>
      rw [List.foldl_cons, buildMoeFfn_eq (members il List.mem_cons_self),
        ih _ (fun il member => members il (List.mem_cons_of_mem _ member))]
      simp

theorem buildGraph_eq (st : State) (shape : Shape) :
    buildGraph s st shape =
      { st with
        pfNtokSeen := s.layers.foldl (seenStep s shape st.finalized) st.pfNtokSeen
        graph := ⟨shape, s.layers.map (idsOp s shape st.finalized)⟩ } := by
  rw [buildGraph, foldl_buildMoeFfn s.layers _ (fun _ member => member)]
  simp

/-- Construction touches neither the account nor what `finalize` leaves. -/
theorem foldl_buildGraph_frame (built : List Shape) (st : State) :
    (built.foldl (buildGraph s) st).finalized = st.finalized ∧
      (built.foldl (buildGraph s) st).pfFirstIl = st.pfFirstIl ∧
      (built.foldl (buildGraph s) st).account = st.account := by
  induction built generalizing st with
  | nil => exact ⟨rfl, rfl, rfl⟩
  | cons shape rest ih =>
      rw [List.foldl_cons, buildGraph_eq]
      exact ih _

theorem foldl_buildGraph_shape (built : List Shape) (st : State) :
    (built.foldl (buildGraph s) st).graph.shape = built.getLastD st.graph.shape := by
  induction built generalizing st with
  | nil => rfl
  | cons shape rest ih =>
      rw [List.foldl_cons, ih, buildGraph_eq]
      cases rest <;> rfl

/-! ## The tokens seen -/

def Setup.firstWidth (s : Setup) (shape : Shape) : Nat :=
  s.layers.head?.elim 0 (s.width shape)

/-- What construction leaves in the global: the last layer overwrites it when
it takes the arena as well. -/
def Setup.seen (s : Setup) (shape : Shape) : Nat :=
  if s.threshold < shape.nLast then shape.nLast else shape.nTokens

theorem Setup.lt_seen (s : Setup) {shape : Shape} (wide : s.threshold < s.firstWidth shape) :
    s.threshold < s.seen shape := by
  obtain ⟨first, rest, layers⟩ := List.exists_cons_of_ne_nil s.layers_ne_nil
  rw [Setup.firstWidth, layers, List.head?_cons, Option.elim_some, Setup.width] at wide
  rw [Setup.seen]
  by_cases both : s.threshold < shape.nLast
  · rw [if_pos both]
    exact both
  · rw [if_neg both]
    split at wide
    · exact absurd wide both
    · exact wide

theorem Setup.width_le (s : Setup) {shape : Shape} (fewer : shape.nLast ≤ shape.nTokens)
    {il : Nat} (member : il ∈ s.layers) : s.width shape il ≤ s.firstWidth shape := by
  obtain ⟨first, rest, layers⟩ := List.exists_cons_of_ne_nil s.layers_ne_nil
  have firstWidth : s.firstWidth shape = s.width shape first := by
    rw [Setup.firstWidth, layers]
    rfl
  rw [firstWidth]
  by_cases alone : s.layers.getLast? = some first
  · have none : rest = [] := by
      by_contra more
      rw [layers, List.getLast?_cons_of_ne_nil more] at alone
      have later := s.first_lt layers first (List.mem_of_getLast? alone)
      exact Nat.lt_irrefl first later
    rw [layers, none, List.mem_singleton] at member
    rw [member]
  · rw [Setup.width, Setup.width, if_neg alone]
    split
    · exact fewer
    · exact Nat.le_refl _

theorem Setup.takes_of_narrow (s : Setup) {shape : Shape} (fewer : shape.nLast ≤ shape.nTokens)
    (narrow : s.firstWidth shape ≤ s.threshold) (finalized : Bool) :
    ∀ il ∈ s.layers, s.takes finalized (s.width shape il) = false := by
  intro il member
  have slab := (s.width_le fewer member).trans narrow
  simp [Setup.takes, slab]

theorem foldl_seenStep_of_wide (arena : s.arena = true) {shape : Shape}
    (wide : s.threshold < shape.nTokens) {ils : List Nat} (seen : Nat) (nonempty : ils ≠ [])
    (widths : ∀ il ∈ ils, s.width shape il = shape.nTokens) :
    ils.foldl (seenStep s shape true) seen = shape.nTokens := by
  induction ils generalizing seen with
  | nil => exact absurd rfl nonempty
  | cons il rest ih =>
      have step : seenStep s shape true seen il = shape.nTokens := by
        simp [seenStep, Setup.takes, arena, widths il List.mem_cons_self, wide]
      rw [List.foldl_cons, step]
      cases rest with
      | nil => rfl
      | cons next more =>
          exact ih _ (List.cons_ne_nil _ _)
            fun il member => widths il (List.mem_cons_of_mem _ member)

theorem foldl_seenStep (arena : s.arena = true) {shape : Shape} (seen : Nat)
    (wide : s.threshold < s.firstWidth shape) :
    s.layers.foldl (seenStep s shape true) seen = s.seen shape := by
  obtain ⟨earlier, last, layers⟩ :=
    (List.eq_nil_or_concat s.layers).resolve_left s.layers_ne_nil
  rw [List.concat_eq_append] at layers
  have final : s.layers.getLast? = some last := by
    rw [layers, List.getLast?_concat]
  have lastWidth : s.width shape last = shape.nLast := if_pos final
  rw [layers, List.foldl_append, List.foldl_cons, List.foldl_nil, seenStep, lastWidth,
    Setup.takes, arena, Setup.seen]
  by_cases both : s.threshold < shape.nLast
  · simp [both]
  · have others : ∀ il ∈ earlier, s.width shape il = shape.nTokens := by
      intro il member
      have ascending := s.ascending
      rw [layers, List.pairwise_append] at ascending
      have before := ascending.2.2 il member last (List.mem_singleton_self last)
      have other : ¬s.layers.getLast? = some il := by
        rw [final, Option.some.injEq]
        exact Nat.ne_of_gt before
      rw [Setup.width, if_neg other]
    have some : earlier ≠ [] := by
      rintro rfl
      rw [Setup.firstWidth, layers] at wide
      exact both (lastWidth ▸ wide)
    have every : s.threshold < shape.nTokens := by
      obtain ⟨first, rest, split⟩ := List.exists_cons_of_ne_nil some
      rw [Setup.firstWidth, layers, split] at wide
      exact (others first (split ▸ List.mem_cons_self)) ▸ wide
    rw [foldl_seenStep_of_wide arena every seen some others]
    simp [both]

/-! ## Prepared graphs -/

/-- The layers take the paths their widths call for, the tokens seen are those
of the graph, and a pass starts at the first layer. -/
structure Prepared (s : Setup) (st : State) : Prop where
  ops : st.graph.ops = s.layers.map (idsOp s st.graph.shape true)
  seen : s.threshold < s.firstWidth st.graph.shape →
    st.finalized = true ∧ st.pfNtokSeen = s.seen st.graph.shape
  first : st.pfFirstIl = none ∨ st.pfFirstIl = s.layers.head?

theorem Prepared.builds (arena : s.arena = true) {st : State} {built : List Shape}
    (finalized : st.finalized = true)
    (first : st.pfFirstIl = none ∨ st.pfFirstIl = s.layers.head?)
    (reused : built = [] → Prepared s st) : Prepared s (built.foldl (buildGraph s) st) := by
  rcases List.eq_nil_or_concat built with none | ⟨earlier, last, split⟩
  · rw [none]
    exact reused none
  · rw [split, List.concat_eq_append, List.foldl_append, List.foldl_cons, List.foldl_nil,
      buildGraph_eq]
    obtain ⟨kept, firstIl, -⟩ := foldl_buildGraph_frame (s := s) earlier st
    rw [kept, finalized]
    refine ⟨rfl, fun wide => ⟨rfl, foldl_seenStep arena _ wide⟩, ?_⟩
    rw [firstIl]
    exact first

/-! ## What computation does to the account -/

/-- A micro-batch as the account sees it: prompt where the first layer takes
the arena, the start of decode where it remaps a single token. -/
def Account.ubatch (s : Setup) (a : Account) (u : Ubatch) : Account :=
  if s.threshold < s.firstWidth u.shape then a.startPass u.now (s.seen u.shape)
  else if s.firstWidth u.shape = 1 then a.pfReqClose u.now
  else a

theorem loadLayerArena_of_ne {now : ℚ} {st : State} {il first : Nat}
    (started : st.pfFirstIl = some first) (later : first ≠ il) :
    loadLayerArena s now st il = st := by
  simp [loadLayerArena, started, later]

theorem pfKick_of_lt {now : ℚ} {st : State} {il first : Nat}
    (started : st.pfFirstIl = some first) (later : first < il) : pfKick s now st il = st := by
  rw [pfKick, loadLayerArena_of_ne started (Nat.ne_of_lt later), ite_self, ite_self]

theorem msPfload_of_lt {now : ℚ} {nt il first : Nat} {st : State}
    (started : st.pfFirstIl = some first) (later : first < il) :
    msPfload s now nt st il = st := by
  simp only [msPfload, loadLayerArena_of_ne started (Nat.ne_of_lt later),
    pfKick_of_lt started (Nat.lt_succ_of_lt later), ite_self]

theorem msPfload_first {now : ℚ} {nt first : Nat} {st : State} (arena : s.arena = true)
    (finalized : st.finalized = true) (pass : st.pfFirstIl = none ∨ st.pfFirstIl = some first) :
    msPfload s now nt st first =
      { st with
        pfFirstIl := some first
        account := st.account.startPass now st.pfNtokSeen } := by
  have load : loadLayerArena s now st first =
      { st with
        pfFirstIl := some first
        account := st.account.startPass now st.pfNtokSeen } := by
    rcases pass with none | again
    · simp [loadLayerArena, finalized, arena, none]
    · simp [loadLayerArena, finalized, arena, again]
  rw [msPfload, load]
  exact (congrArg (ite _ · _) (pfKick_of_lt rfl (Nat.lt_succ_self first))).trans (ite_self _)

theorem iterate_msRemap {now : ℚ} {nt il passes : Nat} {st : State} (positive : 1 ≤ passes) :
    (msRemap s now nt il)^[passes] st = msRemap s now nt il st := by
  have again : msRemap s now nt il (msRemap s now nt il st) = msRemap s now nt il st := by
    by_cases closes : s.layers.head? = some il ∧ nt = 1
    · simp [msRemap, closes]
    · simp only [msRemap, closes, if_false]
  obtain ⟨more, rfl⟩ : ∃ more, passes = more + 1 := ⟨passes - 1, by omega⟩
  rw [Function.iterate_succ_apply]
  exact Function.iterate_fixed again more

theorem msRemap_of_lt {now : ℚ} {nt il first : Nat} {st : State}
    (head : s.layers.head? = some first) (finalized : st.finalized = true) (later : first < il) :
    msRemap s now nt il st = st := by
  have other : ¬(first = il ∧ nt = 1) := fun same => Nat.ne_of_lt later same.1
  simp only [msRemap, head, Option.some.injEq, other, if_false, ← finalized]

theorem foldl_eq_self_of_mem {α β : Type} {f : α → β → α} {a : α} {bs : List β}
    (same : ∀ b ∈ bs, f a b = a) : bs.foldl f a = a := by
  induction bs with
  | nil => rfl
  | cons b rest ih =>
      rw [List.foldl_cons, same b List.mem_cons_self]
      exact ih fun c member => same c (List.mem_cons_of_mem _ member)

theorem computeGraph_remap {now : ℚ} {st : State} {finalized : Bool}
    (ops : st.graph.ops = s.layers.map (idsOp s st.graph.shape finalized))
    (slab : ∀ il ∈ s.layers, s.takes finalized (s.width st.graph.shape il) = false) :
    computeGraph s now st =
      { st with
        finalized := true
        account := if s.firstWidth st.graph.shape = 1 then st.account.pfReqClose now
          else st.account } := by
  obtain ⟨first, rest, layers⟩ := List.exists_cons_of_ne_nil s.layers_ne_nil
  have head : s.layers.head? = some first := by rw [layers, List.head?_cons]
  have remap : ∀ (st' : State), ∀ il ∈ s.layers,
      computeOp s now st' (idsOp s st.graph.shape finalized il) =
        msRemap s now (s.width st.graph.shape il) il st' := by
    intro st' il member
    rw [idsOp, if_neg (by simp [slab il member])]
    exact iterate_msRemap (s.one_le_nPasses _)
  have opening : msRemap s now (s.width st.graph.shape first) first st =
      { st with
        finalized := true
        account := if s.firstWidth st.graph.shape = 1 then st.account.pfReqClose now
          else st.account } := by
    rw [Setup.firstWidth, head]
    by_cases one : s.width st.graph.shape first = 1
    · simp only [msRemap, head, one, Option.elim_some, and_self, if_true]
    · simp only [msRemap, one, Option.elim_some, and_false, if_false]
  rw [computeGraph, ops, List.foldl_map, List.foldl_ext _ _ _ remap]
  rw [layers, List.foldl_cons, opening]
  apply foldl_eq_self_of_mem
  intro il member
  exact msRemap_of_lt head rfl (s.first_lt layers il member)

/-- A graph whose first layer is loaded adds the tokens seen, once. -/
theorem computeGraph_load {now : ℚ} {st : State} (arena : s.arena = true)
    (finalized : st.finalized = true)
    (pass : st.pfFirstIl = none ∨ st.pfFirstIl = s.layers.head?)
    (ops : st.graph.ops = s.layers.map (idsOp s st.graph.shape true))
    (wide : s.threshold < s.firstWidth st.graph.shape) :
    computeGraph s now st =
      { st with
        pfFirstIl := s.layers.head?
        account := st.account.startPass now st.pfNtokSeen } := by
  obtain ⟨first, rest, layers⟩ := List.exists_cons_of_ne_nil s.layers_ne_nil
  have head : s.layers.head? = some first := by rw [layers, List.head?_cons]
  have load : idsOp s st.graph.shape true first =
      .load first (s.width st.graph.shape first) := by
    rw [Setup.firstWidth, head] at wide
    exact if_pos (by simpa [Setup.takes, arena] using wide)
  rw [head] at pass ⊢
  rw [computeGraph, ops, List.foldl_map, layers, List.foldl_cons, load, computeOp,
    msPfload_first arena finalized pass]
  apply foldl_eq_self_of_mem
  intro il member
  have later := s.first_lt layers il member
  rw [idsOp]
  split
  · exact msPfload_of_lt rfl later
  · exact (iterate_msRemap (s.one_le_nPasses _)).trans (msRemap_of_lt head finalized later)

theorem Prepared.computeGraph (arena : s.arena = true) {st : State} (prepared : Prepared s st)
    (u : Ubatch) (fits : st.graph.shape = u.shape) (fewer : u.shape.nLast ≤ u.shape.nTokens) :
    computeGraph s u.now st =
      { st with
        finalized := true
        pfFirstIl := if s.threshold < s.firstWidth u.shape then s.layers.head?
          else st.pfFirstIl
        account := st.account.ubatch s u } := by
  have ops := prepared.ops
  have seen := prepared.seen
  rw [fits] at ops seen
  by_cases wide : s.threshold < s.firstWidth u.shape
  · obtain ⟨finalized, tokens⟩ := seen wide
    rw [computeGraph_load arena finalized prepared.first (fits.symm ▸ ops) (fits.symm ▸ wide),
      Account.ubatch, if_pos wide, if_pos wide, tokens, ← finalized]
  · have slab := s.takes_of_narrow fewer (not_lt.mp wide) true
    rw [computeGraph_remap (fits.symm ▸ ops) (fits.symm ▸ slab), Account.ubatch, if_neg wide,
      if_neg wide, fits]

/-! ## Runs -/

/-- Between micro-batches, once one has been computed; a graph that the next
one reuses is prepared. -/
structure Poised (s : Setup) (st : State) (us : List Ubatch) : Prop where
  finalized : st.finalized = true
  first : st.pfFirstIl = none ∨ st.pfFirstIl = s.layers.head?
  reused : ∀ u ∈ us.head?, u.built = [] → Prepared s st

theorem Poised.ubatch (arena : s.arena = true) {st : State} {u : Ubatch} {rest : List Ubatch}
    (poised : Poised s st (u :: rest)) (fits : u.built.getLastD st.graph.shape = u.shape)
    (fewer : u.shape.nLast ≤ u.shape.nTokens) :
    Poised s (ubatch s st u) rest ∧ (PrefillRate.ubatch s st u).graph.shape = u.shape ∧
      (PrefillRate.ubatch s st u).account = st.account.ubatch s u := by
  have prepared := Prepared.builds arena poised.finalized poised.first
    (poised.reused u (Option.mem_some_self u))
  have shape : (u.built.foldl (buildGraph s) st).graph.shape = u.shape := by
    rw [foldl_buildGraph_shape, fits]
  obtain ⟨-, -, account⟩ := foldl_buildGraph_frame (s := s) u.built st
  rw [PrefillRate.ubatch, prepared.computeGraph arena u shape fewer, account]
  have first : (if s.threshold < s.firstWidth u.shape then s.layers.head?
      else (u.built.foldl (buildGraph s) st).pfFirstIl) = none ∨
      (if s.threshold < s.firstWidth u.shape then s.layers.head?
        else (u.built.foldl (buildGraph s) st).pfFirstIl) = s.layers.head? := by
    split
    · exact Or.inr rfl
    · exact prepared.first
  exact ⟨⟨rfl, first, fun _ _ _ =>
    ⟨prepared.ops, fun wide => ⟨rfl, (prepared.seen wide).2⟩, first⟩⟩, shape, rfl⟩

/-- The first micro-batch of the process takes the slab at any width. -/
theorem ubatch_init {u : Ubatch} (positive : 0 < u.shape.nTokens)
    (fewer : u.shape.nLast ≤ u.shape.nTokens)
    (fits : u.built.getLastD State.init.graph.shape = u.shape) :
    (ubatch s State.init u).finalized = true ∧ (ubatch s State.init u).pfFirstIl = none ∧
      (ubatch s State.init u).graph.shape = u.shape ∧
      (ubatch s State.init u).account = Account.init ∧
      (s.firstWidth u.shape ≤ s.threshold → Prepared s (ubatch s State.init u)) := by
  rcases List.eq_nil_or_concat u.built with none | ⟨earlier, last, split⟩
  · rw [none] at fits
    rw [← fits] at positive
    exact absurd positive (Nat.lt_irrefl 0)
  · have shape : last = u.shape := by simpa [split] using fits
    obtain ⟨finalized, first, account⟩ := foldl_buildGraph_frame (s := s) u.built State.init
    have graph : (u.built.foldl (buildGraph s) State.init).graph =
        ⟨u.shape, s.layers.map (idsOp s u.shape false)⟩ := by
      rw [split, List.concat_eq_append, List.foldl_append, List.foldl_cons, List.foldl_nil,
        buildGraph_eq, (foldl_buildGraph_frame earlier State.init).1, shape]
      rfl
    have slab : ∀ il ∈ s.layers, s.takes false (s.width u.shape il) = false := fun _ _ => rfl
    have ops : (u.built.foldl (buildGraph s) State.init).graph.ops =
        s.layers.map (idsOp s (u.built.foldl (buildGraph s) State.init).graph.shape false) := by
      rw [graph]
    rw [ubatch, computeGraph_remap ops (by rw [graph]; exact slab)]
    refine ⟨rfl, first, by rw [graph], ?_, ?_⟩
    · dsimp only
      rw [account, Account.pfReqClose_of_closed ⟨rfl, rfl⟩, ite_self]
      rfl
    · intro narrow
      have same : ∀ il ∈ s.layers, idsOp s u.shape false il = idsOp s u.shape true il := by
        intro il member
        rw [idsOp, idsOp, slab il member, s.takes_of_narrow fewer narrow true il member]
      refine ⟨?_, ?_, Or.inl first⟩
      · dsimp only
        rw [graph]
        exact List.map_congr_left same
      · dsimp only
        rw [graph]
        exact fun wide => absurd wide (not_lt.mpr narrow)

def lastShape (last : Shape) (us : List Ubatch) : Shape := us.foldl (fun _ u => u.shape) last

theorem graphsFit_append {last : Shape} {us vs : List Ubatch} (fits : GraphsFit last (us ++ vs)) :
    GraphsFit last us ∧ GraphsFit (lastShape last us) vs := by
  induction us generalizing last with
  | nil => exact ⟨trivial, fits⟩
  | cons u rest ih =>
      obtain ⟨sizes, shape, later⟩ := fits
      obtain ⟨left, right⟩ := ih later
      exact ⟨⟨sizes, shape, left⟩, right⟩

theorem Poised.run (arena : s.arena = true) {st : State} {us vs : List Ubatch}
    (poised : Poised s st (us ++ vs)) (fits : GraphsFit st.graph.shape us) :
    Poised s (run s st us) vs ∧
      (PrefillRate.run s st us).graph.shape = lastShape st.graph.shape us ∧
      (PrefillRate.run s st us).account = us.foldl (Account.ubatch s) st.account := by
  induction us generalizing st with
  | nil => exact ⟨poised, rfl, rfl⟩
  | cons u rest ih =>
      obtain ⟨sizes, shape, later⟩ := fits
      obtain ⟨stepPoised, stepShape, stepAccount⟩ := poised.ubatch arena shape sizes.2
      obtain ⟨runPoised, runShape, runAccount⟩ := ih stepPoised (stepShape.symm ▸ later)
      refine ⟨runPoised, ?_, ?_⟩
      · rw [PrefillRate.run, List.foldl_cons]
        rw [stepShape] at runShape
        exact runShape
      · rw [PrefillRate.run, List.foldl_cons, List.foldl_cons, ← stepAccount]
        exact runAccount

end MoeStream.PrefillRate
