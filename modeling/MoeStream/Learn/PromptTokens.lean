import Mathlib.Algebra.GroupWithZero.Nat
import MoeStream.Learn.PrefillRate

/-!
# Prompt tokens of a session

Requests one after another: the tokens each is credited with when its decode
starts, and the numerator of the rate at the end.
-/

set_option autoImplicit false

namespace MoeStream.PrefillRate

/-! ## Requests -/

structure Request where
  prompt : List Ubatch
  decode : List Ubatch
deriving DecidableEq

namespace Request

variable (s : Setup) (r : Request)

def ubatches : List Ubatch := r.prompt ++ r.decode

def tokens : Nat := (r.prompt.map (·.shape.nTokens)).sum

def start : ℚ := r.prompt.head?.elim 0 Ubatch.now

def decodeStart : ℚ := (r.decode.find? (s.firstWidth ·.shape = 1)).elim 0 Ubatch.now

/-- The whole prompt is wide enough for the arena, and a last layer that takes
it too has every token; no decode step is, and one has a single token.  The
prompt takes less than an hour, as the guard of `pf_req_close` asks. -/
structure Whole : Prop where
  wide : ∀ u ∈ r.prompt, s.threshold < s.firstWidth u.shape
  outputs : ∀ u ∈ r.prompt, s.threshold < u.shape.nLast → u.shape.nLast = u.shape.nTokens
  narrow : ∀ u ∈ r.decode, s.firstWidth u.shape ≤ s.threshold
  single : ∃ u ∈ r.decode, s.firstWidth u.shape = 1
  credible : Account.Credible r.start (r.decodeStart s)

variable {s r}

theorem Whole.seen (whole : r.Whole s) : ∀ u ∈ r.prompt, s.seen u.shape = u.shape.nTokens := by
  intro u member
  rw [Setup.seen]
  split
  · exact whole.outputs u member ‹_›
  · rfl

end Request

/-! ## Credits of the account -/

namespace Account

def credited (before after : Account) : List Nat :=
  if before.intervals < after.intervals then [after.tokTotal - before.tokTotal] else []

def credits (s : Setup) (a : Account) : List Ubatch → List Nat
  | [] => []
  | u :: rest => a.credited (a.ubatch s u) ++ credits s (a.ubatch s u) rest

variable {s : Setup} {a : Account}

theorem credited_of_intervals {b : Account} (same : b.intervals = a.intervals) :
    a.credited b = [] := by
  rw [credited, same, if_neg (Nat.lt_irrefl _)]

theorem credits_append (us vs : List Ubatch) :
    a.credits s (us ++ vs) =
      a.credits s us ++ (us.foldl (ubatch s) a).credits s vs := by
  induction us generalizing a with
  | nil => rfl
  | cons u rest ih => simp only [List.cons_append, credits, List.foldl_cons, ih, List.append_assoc]

theorem prompt_run_of_started (us : List Ubatch) (started : 0 < a.reqT0)
    (wide : ∀ u ∈ us, s.threshold < s.firstWidth u.shape)
    (seen : ∀ u ∈ us, s.seen u.shape = u.shape.nTokens) :
    us.foldl (ubatch s) a =
        { a with reqTok := a.reqTok + (us.map (·.shape.nTokens)).sum } ∧
      a.credits s us = [] := by
  induction us generalizing a with
  | nil => exact ⟨rfl, rfl⟩
  | cons u rest ih =>
      have step : a.ubatch s u = { a with reqTok := a.reqTok + u.shape.nTokens } := by
        rw [ubatch, if_pos (wide u List.mem_cons_self), startPass, if_neg (ne_of_gt started),
          seen u List.mem_cons_self]
      obtain ⟨runs, none⟩ := ih (a := { a with reqTok := a.reqTok + u.shape.nTokens }) started
        (fun v member => wide v (List.mem_cons_of_mem _ member))
        (fun v member => seen v (List.mem_cons_of_mem _ member))
      rw [List.foldl_cons, credits, step, runs, none]
      refine ⟨?_, (List.append_nil _).trans (credited_of_intervals rfl)⟩
      simp only [List.map_cons, List.sum_cons, Nat.add_assoc]

theorem prompt_run {u : Ubatch} {rest : List Ubatch} (idle : a.reqT0 = 0) (clock : 0 < u.now)
    (wide : ∀ v ∈ u :: rest, s.threshold < s.firstWidth v.shape)
    (seen : ∀ v ∈ u :: rest, s.seen v.shape = v.shape.nTokens) :
    (u :: rest).foldl (ubatch s) a =
        { a with reqT0 := u.now, reqTok := a.reqTok + ((u :: rest).map (·.shape.nTokens)).sum } ∧
      a.credits s (u :: rest) = [] := by
  have step : a.ubatch s u =
      { a with reqT0 := u.now, reqTok := a.reqTok + u.shape.nTokens } := by
    rw [ubatch, if_pos (wide u List.mem_cons_self), startPass, if_pos idle,
      seen u List.mem_cons_self]
  obtain ⟨runs, none⟩ := prompt_run_of_started
    (a := { a with reqT0 := u.now, reqTok := a.reqTok + u.shape.nTokens }) rest clock
    (fun v member => wide v (List.mem_cons_of_mem _ member))
    (fun v member => seen v (List.mem_cons_of_mem _ member))
  rw [List.foldl_cons, credits, step, runs, none]
  refine ⟨?_, (List.append_nil _).trans (credited_of_intervals rfl)⟩
  simp only [List.map_cons, List.sum_cons, Nat.add_assoc]

theorem narrow_run_of_closed (closed : a.Closed) {us : List Ubatch}
    (narrow : ∀ u ∈ us, s.firstWidth u.shape ≤ s.threshold) :
    us.foldl (ubatch s) a = a ∧ a.credits s us = [] := by
  induction us with
  | nil => exact ⟨rfl, rfl⟩
  | cons u rest ih =>
      have step : a.ubatch s u = a := by
        rw [ubatch, if_neg (not_lt.mpr (narrow u List.mem_cons_self)),
          pfReqClose_of_closed closed, ite_self]
      obtain ⟨runs, none⟩ := ih fun u member => narrow u (List.mem_cons_of_mem _ member)
      rw [List.foldl_cons, credits, step, runs, none, credited_of_intervals rfl]
      exact ⟨rfl, rfl⟩

/-- The first decode step of one token closes the request, whatever is around
it. -/
theorem decode_run (started : 0 < a.reqT0) (tokens : 0 < a.reqTok) {us : List Ubatch}
    (narrow : ∀ u ∈ us, s.firstWidth u.shape ≤ s.threshold)
    (single : ∃ u ∈ us, s.firstWidth u.shape = 1) :
    us.foldl (ubatch s) a =
        a.pfReqClose ((us.find? (s.firstWidth ·.shape = 1)).elim 0 Ubatch.now) ∧
      a.credits s us =
        a.credited (a.pfReqClose ((us.find? (s.firstWidth ·.shape = 1)).elim 0 Ubatch.now)) := by
  induction us with
  | nil =>
      obtain ⟨u, member, -⟩ := single
      exact absurd member List.not_mem_nil
  | cons u rest ih =>
      have later : ∀ v ∈ rest, s.firstWidth v.shape ≤ s.threshold :=
        fun v member => narrow v (List.mem_cons_of_mem _ member)
      have slab : ¬s.threshold < s.firstWidth u.shape := not_lt.mpr (narrow u List.mem_cons_self)
      by_cases one : s.firstWidth u.shape = 1
      · have step : a.ubatch s u = a.pfReqClose u.now := by
          rw [ubatch, if_neg slab, if_pos one]
        obtain ⟨runs, none⟩ := narrow_run_of_closed (s := s)
          (closed_pfReqClose_of_pos started tokens u.now) later
        have found : (u :: rest).find? (s.firstWidth ·.shape = 1) = some u :=
          List.find?_cons_of_pos (decide_eq_true one)
        rw [List.foldl_cons, credits, step, runs, none, found, List.append_nil]
        exact ⟨rfl, rfl⟩
      · have step : a.ubatch s u = a := by rw [ubatch, if_neg slab, if_neg one]
        have remains : ∃ v ∈ rest, s.firstWidth v.shape = 1 := by
          obtain ⟨v, member, first⟩ := single
          rcases List.mem_cons.mp member with rfl | member
          · exact absurd first one
          · exact ⟨v, member, first⟩
        have found : (u :: rest).find? (s.firstWidth ·.shape = 1) =
            rest.find? (s.firstWidth ·.shape = 1) :=
          List.find?_cons_of_neg (by simpa using one)
        rw [List.foldl_cons, credits, step, found, credited_of_intervals rfl, List.nil_append]
        exact ih later remains

structure Ledger (entries : List Nat) (a : Account) : Prop where
  closed : a.Closed
  tokTotal : a.tokTotal = entries.sum
  intervals : a.intervals = entries.length
  firstTok : ∀ first ∈ entries.head?, a.firstTok = first

theorem Ledger.init : Ledger [] Account.init :=
  ⟨⟨rfl, rfl⟩, rfl, rfl, fun _ none => nomatch none⟩

theorem Ledger.close {entries : List Nat} (ledger : Ledger entries a) {t0 now : ℚ} {tok : Nat}
    (started : 0 < t0) (tokens : 0 < tok) (credible : Credible t0 now) :
    Ledger (entries ++ [tok]) ({ a with reqT0 := t0, reqTok := tok }.pfReqClose now) ∧
      { a with reqT0 := t0, reqTok := tok }.credited
          ({ a with reqT0 := t0, reqTok := tok }.pfReqClose now) = [tok] := by
  have closed := closed_pfReqClose_of_pos (a := { a with reqT0 := t0, reqTok := tok })
    started tokens now
  obtain ⟨total, intervals, firstTok⟩ := pfReqClose_of_credible
    (a := { a with reqT0 := t0, reqTok := tok }) started tokens now credible
  refine ⟨⟨closed, ?_, ?_, ?_⟩, ?_⟩
  · rw [total, List.sum_append, List.sum_singleton, ← ledger.tokTotal]
  · rw [intervals, List.length_append, List.length_singleton, ← ledger.intervals]
  · intro first member
    rw [firstTok, ledger.intervals]
    cases entries with
    | nil => exact Option.mem_some_iff.mp member
    | cons entry more => exact ledger.firstTok first member
  · rw [credited, intervals, total, if_pos (Nat.lt_succ_self _), Nat.add_sub_cancel_left]

/-- One whole request: what it is credited with, and the ledger after it. -/
theorem Ledger.request {entries : List Nat} (ledger : Ledger entries a) {r : Request}
    (whole : r.Whole s) (prompt : r.prompt ≠ []) (clock : ∀ u ∈ r.prompt, 0 < u.now) :
    Ledger (entries ++ [r.tokens]) (r.ubatches.foldl (ubatch s) a) ∧
      a.credits s r.ubatches = [r.tokens] := by
  obtain ⟨u, rest, cut⟩ := List.exists_cons_of_ne_nil prompt
  have started : 0 < u.now := clock u (cut ▸ List.mem_cons_self)
  obtain ⟨runs, none⟩ :=
    prompt_run (a := a) ledger.closed.1 started (cut ▸ whole.wide) (cut ▸ whole.seen)
  have tokens : 0 < r.tokens := by
    have first : s.threshold < s.seen u.shape :=
      s.lt_seen (whole.wide u (cut ▸ List.mem_cons_self))
    rw [whole.seen u (cut ▸ List.mem_cons_self)] at first
    rw [Request.tokens, cut, List.map_cons, List.sum_cons]
    omega
  have opened : r.prompt.foldl (ubatch s) a =
      { a with reqT0 := u.now, reqTok := r.tokens } := by
    rw [cut, runs, ledger.closed.2, Nat.zero_add, Request.tokens, cut]
  obtain ⟨closes, credited⟩ := decode_run
    (a := { a with reqT0 := u.now, reqTok := r.tokens }) started tokens whole.narrow whole.single
  have start : r.start = u.now := by
    rw [Request.start, cut]
    rfl
  obtain ⟨after, amount⟩ := ledger.close started tokens (start ▸ whole.credible)
  rw [Request.ubatches, List.foldl_append, credits_append, opened, closes, credited, cut, none]
  exact ⟨after, amount⟩

/-- The entries that the numerator counts: all but the first of several. -/
def counted (entries : List Nat) : Nat :=
  if 2 ≤ entries.length then entries.tail.sum else entries.sum

theorem Ledger.prefillTokens {entries : List Nat} (ledger : Ledger entries a) :
    a.prefillTokens = counted entries := by
  rw [Account.prefillTokens, counted, ledger.intervals, ledger.tokTotal]
  cases entries with
  | nil => rfl
  | cons first rest =>
      rw [ledger.firstTok first rfl, List.tail_cons, List.sum_cons, Nat.add_sub_cancel_left]

theorem Ledger.requests {entries : List Nat} (rs : List Request) (ledger : Ledger entries a)
    (whole : ∀ r ∈ rs, r.Whole s) (prompts : ∀ r ∈ rs, r.prompt ≠ [])
    (clock : ∀ u ∈ rs.flatMap Request.ubatches, 0 < u.now) :
    Ledger (entries ++ rs.map Request.tokens)
      ((rs.flatMap Request.ubatches).foldl (ubatch s) a) := by
  induction rs generalizing a entries with
  | nil => simpa using ledger
  | cons r rest ih =>
      have mine : ∀ u ∈ r.prompt, 0 < u.now := fun u member =>
        clock u (List.mem_flatMap.mpr ⟨r, List.mem_cons_self, List.mem_append_left _ member⟩)
      have after := (ledger.request (whole r List.mem_cons_self) (prompts r List.mem_cons_self)
        mine).1
      rw [List.map_cons, List.append_cons, List.flatMap_cons, List.foldl_append]
      refine ih after (fun q member => whole q (List.mem_cons_of_mem _ member))
        (fun q member => prompts q (List.mem_cons_of_mem _ member)) ?_
      intro u member
      exact clock u (List.mem_append_right _ member)

end Account

/-! ## Sessions -/

/-- What the process runs: warm-up micro-batches, then requests one after
another, each with a prompt. -/
structure Session (s : Setup) where
  warmup : List Ubatch
  requests : List Request
  fits : GraphsFit ⟨0, 0⟩ (warmup ++ requests.flatMap Request.ubatches)
  clock : ∀ u ∈ requests.flatMap Request.ubatches, 0 < u.now
  prompts : ∀ r ∈ requests, r.prompt ≠ []

def credits (s : Setup) (st : State) : List Ubatch → List Nat
  | [] => []
  | u :: rest => st.account.credited (ubatch s st u).account ++ credits s (ubatch s st u) rest

variable {s : Setup}

namespace Session

variable (σ : Session s)

def ubatches : List Ubatch := σ.warmup ++ σ.requests.flatMap Request.ubatches

def after (served : List Request) : State :=
  run s (run s State.init σ.warmup) (served.flatMap Request.ubatches)

/-- The micro-batch that finalizes is not a request's, later ones of the
warm-up are no prompts, and no wide graph from before `finalize` is reused. -/
structure Warm : Prop where
  warmup_ne_nil : σ.warmup ≠ []
  narrow : ∀ u ∈ σ.warmup.tail, s.firstWidth u.shape ≤ s.threshold
  rebuilt : ∀ u ∈ σ.ubatches.head?, ∀ v ∈ σ.ubatches.tail.head?,
    s.firstWidth u.shape ≤ s.threshold ∨ v.built ≠ []

/-- Every request is credited with its prompt tokens, and is closed when the
next one starts; the rate counts what was credited. -/
def CountsPrompts : Prop :=
  (∀ served r rest, σ.requests = served ++ r :: rest →
    credits s (σ.after served) r.ubatches = [r.tokens] ∧
      (σ.after (served ++ [r])).account.Closed) ∧
  (σ.after σ.requests).account.prefillTokens =
    Account.counted (σ.requests.map Request.tokens)

end Session

theorem Poised.credits (arena : s.arena = true) {st : State} {us vs : List Ubatch}
    (poised : Poised s st (us ++ vs)) (fits : GraphsFit st.graph.shape us) :
    credits s st us = st.account.credits s us := by
  induction us generalizing st with
  | nil => rfl
  | cons u rest ih =>
      obtain ⟨sizes, shape, later⟩ := fits
      obtain ⟨stepPoised, stepShape, stepAccount⟩ := poised.ubatch arena shape sizes.2
      rw [PrefillRate.credits, Account.credits, ih stepPoised (stepShape.symm ▸ later),
        stepAccount]

theorem Session.Warm.poised (arena : s.arena = true) {σ : Session s} (warm : σ.Warm) :
    Poised s (run s State.init σ.warmup) (σ.requests.flatMap Request.ubatches) ∧
      (run s State.init σ.warmup).graph.shape = lastShape ⟨0, 0⟩ σ.warmup ∧
      (run s State.init σ.warmup).account = Account.init := by
  obtain ⟨u, rest, cut⟩ := List.exists_cons_of_ne_nil warm.warmup_ne_nil
  have fits := (graphsFit_append σ.fits).1
  have rebuilt := warm.rebuilt
  have narrow := warm.narrow
  rw [Session.ubatches, cut] at rebuilt
  rw [cut] at fits narrow ⊢
  obtain ⟨⟨positive, fewer⟩, shape, later⟩ := fits
  obtain ⟨finalized, first, kept, account, prepared⟩ := ubatch_init (s := s) positive fewer shape
  have poised : Poised s (ubatch s State.init u)
      (rest ++ σ.requests.flatMap Request.ubatches) := by
    refine ⟨finalized, Or.inl first, ?_⟩
    intro v next reused
    rcases rebuilt u rfl v next with slab | built
    · exact prepared slab
    · exact absurd reused built
  obtain ⟨after, last, final⟩ := poised.run arena (kept.symm ▸ later)
  refine ⟨after, ?_, ?_⟩
  · rw [kept] at last
    exact last
  · refine final.trans ?_
    rw [account]
    exact (Account.narrow_run_of_closed ⟨rfl, rfl⟩ narrow).1

section Whole

variable (arena : s.arena = true) {σ : Session s} (warm : σ.Warm)
  (whole : ∀ r ∈ σ.requests, r.Whole s)
include arena warm whole

/-- The ledger after the first requests, and what the next is credited with. -/
theorem Session.Warm.ledger {served rest : List Request} (split : σ.requests = served ++ rest) :
    Account.Ledger (served.map Request.tokens) (σ.after served).account ∧
      Poised s (σ.after served) (rest.flatMap Request.ubatches) ∧
      GraphsFit (σ.after served).graph.shape (rest.flatMap Request.ubatches) := by
  obtain ⟨poised, width, account⟩ := warm.poised arena
  have fits := (graphsFit_append σ.fits).2
  have clock := σ.clock
  rw [split, List.flatMap_append] at poised fits clock
  obtain ⟨mine, others⟩ := graphsFit_append fits
  obtain ⟨next, last, final⟩ := poised.run arena (width.symm ▸ mine)
  have ledger := Account.Ledger.requests (s := s) served Account.Ledger.init
    (fun r member => whole r (split ▸ List.mem_append_left _ member))
    (fun r member => σ.prompts r (split ▸ List.mem_append_left _ member))
    (fun u member => clock u (List.mem_append_left _ member))
  rw [account] at final
  rw [← final, List.nil_append] at ledger
  refine ⟨ledger, next, ?_⟩
  rw [Session.after, last, width]
  exact others

theorem Session.Warm.credits_request {served rest : List Request} {r : Request}
    (split : σ.requests = served ++ r :: rest) :
    credits s (σ.after served) r.ubatches = [r.tokens] := by
  obtain ⟨ledger, poised, fits⟩ := warm.ledger arena whole split
  have member : r ∈ σ.requests := by
    rw [split]
    exact List.mem_append_right _ List.mem_cons_self
  have clock : ∀ u ∈ r.prompt, 0 < u.now := fun u mine =>
    σ.clock u (List.mem_flatMap.mpr ⟨r, member, List.mem_append_left _ mine⟩)
  rw [List.flatMap_cons] at poised fits
  rw [poised.credits arena (graphsFit_append fits).1]
  exact (ledger.request (whole r member) (σ.prompts r member) clock).2

theorem Session.Warm.prefillTokens :
    (σ.after σ.requests).account.prefillTokens =
      Account.counted (σ.requests.map Request.tokens) :=
  (warm.ledger arena whole (List.append_nil _).symm).1.prefillTokens

end Whole

/-- Where prompts are wide throughout and decode is narrow, every request is
credited with its prompt, in whatever cut. -/
theorem prompts_counted (arena : s.arena = true) (σ : Session s) (warm : σ.Warm)
    (whole : ∀ r ∈ σ.requests, r.Whole s) :
    σ.CountsPrompts ∧
      ∀ (s' : Setup) (τ : Session s'), s'.arena = true → τ.Warm →
        (∀ r ∈ τ.requests, r.Whole s') →
        τ.requests.map Request.tokens = σ.requests.map Request.tokens →
        (τ.after τ.requests).account.prefillTokens =
          (σ.after σ.requests).account.prefillTokens := by
  refine ⟨⟨?_, warm.prefillTokens arena whole⟩, ?_⟩
  · intro served r rest split
    have through : σ.requests = (served ++ [r]) ++ rest := by
      rw [split, List.append_assoc, List.singleton_append]
    exact ⟨warm.credits_request arena whole split, (warm.ledger arena whole through).1.closed⟩
  · intro s' τ arena' warm' whole' recut
    rw [warm'.prefillTokens arena' whole', warm.prefillTokens arena whole, recut]

/-! ## Two sessions -/

def twoLayers : Setup where
  layers := [1, 2]
  threshold := 8
  arena := true
  async := true
  nPasses := Function.const Nat 1
  ascending := by decide
  layers_ne_nil := by decide
  one_le_nPasses := fun _ => Nat.le_refl 1

def warmupUbatch : Ubatch := ⟨[⟨512, 512⟩, ⟨2, 1⟩], ⟨2, 1⟩, 1⟩

def evenRequests : List Request :=
  [⟨[⟨[⟨500, 0⟩], ⟨500, 0⟩, 2⟩, ⟨[⟨15, 1⟩], ⟨15, 1⟩, 3⟩],
      [⟨[⟨1, 1⟩], ⟨1, 1⟩, 4⟩, ⟨[], ⟨1, 1⟩, 5⟩]⟩,
    ⟨[⟨[⟨300, 1⟩], ⟨300, 1⟩, 6⟩], [⟨[⟨4, 4⟩], ⟨4, 4⟩, 7⟩, ⟨[⟨1, 1⟩], ⟨1, 1⟩, 8⟩]⟩]

def tailRequests : List Request :=
  [⟨[⟨[⟨512, 0⟩], ⟨512, 0⟩, 2⟩, ⟨[⟨3, 1⟩], ⟨3, 1⟩, 3⟩],
    [⟨[⟨1, 1⟩], ⟨1, 1⟩, 4⟩, ⟨[], ⟨1, 1⟩, 5⟩]⟩]

theorem evenRequests_fit :
    GraphsFit ⟨0, 0⟩ ([warmupUbatch] ++ evenRequests.flatMap Request.ubatches) := by decide

theorem evenRequests_clock : ∀ u ∈ evenRequests.flatMap Request.ubatches, 0 < u.now := by
  decide +kernel

theorem evenRequests_prompts : ∀ r ∈ evenRequests, r.prompt ≠ [] := by decide

theorem tailRequests_fit :
    GraphsFit ⟨0, 0⟩ ([warmupUbatch] ++ tailRequests.flatMap Request.ubatches) := by decide

theorem tailRequests_clock : ∀ u ∈ tailRequests.flatMap Request.ubatches, 0 < u.now := by
  decide +kernel

theorem tailRequests_prompts : ∀ r ∈ tailRequests, r.prompt ≠ [] := by decide

def evenSession : Session twoLayers :=
  ⟨[warmupUbatch], evenRequests, evenRequests_fit, evenRequests_clock, evenRequests_prompts⟩

def tailSession : Session twoLayers :=
  ⟨[warmupUbatch], tailRequests, tailRequests_fit, tailRequests_clock, tailRequests_prompts⟩

theorem evenSession_warm : evenSession.Warm :=
  ⟨by decide, by decide, by decide⟩

theorem evenRequests_whole : ∀ r ∈ evenRequests, r.Whole twoLayers := by
  have wide : ∀ r ∈ evenRequests, ∀ u ∈ r.prompt,
      twoLayers.threshold < twoLayers.firstWidth u.shape := by decide
  have outputs : ∀ r ∈ evenRequests, ∀ u ∈ r.prompt,
      twoLayers.threshold < u.shape.nLast → u.shape.nLast = u.shape.nTokens := by decide
  have narrow : ∀ r ∈ evenRequests, ∀ u ∈ r.decode,
      twoLayers.firstWidth u.shape ≤ twoLayers.threshold := by decide
  have single : ∀ r ∈ evenRequests, ∃ u ∈ r.decode, twoLayers.firstWidth u.shape = 1 := by
    decide
  have credible : ∀ r ∈ evenRequests, Account.Credible r.start (r.decodeStart twoLayers) := by
    decide +kernel
  exact fun r member =>
    ⟨wide r member, outputs r member, narrow r member, single r member, credible r member⟩

theorem evenSession_counted :
    evenSession.CountsPrompts ∧
      ∀ (s' : Setup) (τ : Session s'), s'.arena = true → τ.Warm →
        (∀ r ∈ τ.requests, r.Whole s') →
        τ.requests.map Request.tokens = evenSession.requests.map Request.tokens →
        (τ.after τ.requests).account.prefillTokens =
          (evenSession.after evenSession.requests).account.prefillTokens :=
  prompts_counted rfl evenSession evenSession_warm evenRequests_whole

/-- Of the 515 prompt tokens 512 are credited. -/
theorem tail_uncounted : ¬tailSession.CountsPrompts := by
  intro counts
  have first := (counts.1 [] _ [] rfl).1
  revert first
  decide +kernel

end MoeStream.PrefillRate
