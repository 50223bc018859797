import Mathlib.Data.List.Chain
import MoeStream.Loader.DenseSubstitutes

/-!
# The load op in the graph

Embedding of `build_dense_load` with its two static variables, and of the graphs
it is called for.  A call is suppressed when it names the context and the layer
of the call before it, in whatever graph that was, so a graph lacks an op
exactly when two consecutive calls agree.
-/

set_option autoImplicit false

namespace MoeStream.Dense

/-! ## Graphs -/

/-- A node of a graph; inputs are positions of earlier nodes. -/
inductive Node where
  | hidden
  | dnload (il input : Nat)
  | ffn (il : Nat) (weights : Ffn) (input : Nat)

def Ffn.Replaced (f : Ffn) : Prop := ∃ role v, f.weight role = some (.arena v)

/-- What a build starts from: the set-up, `last_ctx` with `last_il`, and the
nodes so far. -/
structure Builder where
  setup : Setup := {}
  last : Option (Nat × Nat) := none
  nodes : List Node := []

/-- A graph to build: the address of its context and the layers in the order in
which `build_ffn` is called. -/
structure Build where
  ctx : Nat
  layers : List Nat

/-- `build_dense_load`: the builder and the node the layer goes on with. -/
def buildDenseLoad (b : Builder) (ctx cur il : Nat) : Builder × Nat :=
  if b.last = some (ctx, il) then (b, cur)
  else ({ b with last := some (ctx, il), nodes := b.nodes ++ [.dnload il cur] }, b.nodes.length)

variable (m : Model) (dev : Device)

/-- The patch of `build_ffn` replaces weights of the layer. -/
def Model.replaces (s : Setup) (il : Nat) : Bool :=
  m.setting.enabled && s.ready && ((m.arena dev).denseFfn il .up).isSome &&
    ((m.arena dev).denseFfn il .down).isSome

def Model.buildLayer (ctx : Nat) (b : Builder) (il : Nat) : Builder :=
  let setup := m.denseEnsure dev b.setup
  let cur := b.nodes.length
  let b := { b with setup := setup, nodes := b.nodes ++ [.hidden] }
  let (b, cur) := if m.replaces dev setup il then buildDenseLoad b ctx cur il else (b, cur)
  { b with nodes := b.nodes ++ [.ffn il (m.buildFfn dev setup il) cur] }

def Model.buildGraph (b : Builder) (build : Build) : Builder :=
  build.layers.foldl (m.buildLayer dev build.ctx) { b with nodes := [] }

def Model.graphs (b : Builder) : List Build → List (List Node)
  | [] => []
  | build :: rest =>
      (m.buildGraph dev b build).nodes :: Model.graphs (m.buildGraph dev b build) rest

/-- Every FFN with replaced weights consumes the output of a load op for its
layer in the same graph. -/
def Loads (g : List Node) : Prop :=
  ∀ il f input, .ffn il f input ∈ g → f.Replaced → ∃ cur, g[input]? = some (.dnload il cur)

/-- The layers whose weights are replaced, once the first graph was begun. -/
def Model.streamed (il : Nat) : Bool := m.replaces dev (m.denseEnsure dev {}) il

/-- The calls of `build_dense_load` over all builds. -/
def Model.loadCalls (builds : List Build) : List (Nat × Nat) :=
  builds.flatMap fun build => (build.layers.filter (m.streamed dev)).map fun il => (build.ctx, il)

variable {m dev} {b : Builder} {ctx il : Nat}

/-! ## One layer -/

def Closed (g : List Node) : Prop := ∀ il f input, .ffn il f input ∈ g → input < g.length

theorem replaced_iff {s : Setup} : (m.buildFfn dev s il).Replaced ↔ m.replaces dev s il = true := by
  constructor
  · rintro ⟨role, v, replaced⟩
    by_contra kept
    have same : m.buildFfn dev s il = ⟨m.weight il .gate, m.weight il .up, m.weight il .down⟩ := by
      apply substitute_kept
      simp only [Model.replaces, Bool.not_eq_true, Bool.and_eq_false_iff,
        Option.isSome_eq_false_iff, Option.isNone_iff_eq_none] at kept
      rw [Bool.and_eq_false_iff]
      tauto
    rw [same] at replaced
    cases role <;> exact weight_own replaced
  · intro both
    simp only [Model.replaces, Bool.and_eq_true] at both
    obtain ⟨⟨active, hasUp⟩, hasDown⟩ := both
    obtain ⟨up, hasUp⟩ := Option.isSome_iff_exists.mp hasUp
    obtain ⟨down, hasDown⟩ := Option.isSome_iff_exists.mp hasDown
    refine ⟨.up, up, ?_⟩
    simp only [Model.buildFfn, Arena.substitute]
    rw [active.1, active.2, hasUp, hasDown]
    rfl

theorem getElem?_before {g extra : List Node} {i : Nat} (small : i < g.length) :
    (g ++ extra)[i]? = g[i]? := List.getElem?_append_left small

/-- Nodes that are added change nothing for the nodes before them. -/
theorem loads_before {g extra : List Node} (closed : Closed g) (loads : Loads (g ++ extra)) :
    Loads g := by
  intro il f input member replaced
  obtain ⟨cur, found⟩ := loads il f input (List.mem_append_left _ member) replaced
  rw [getElem?_before (closed il f input member)] at found
  exact ⟨cur, found⟩

theorem loads_plain (il : Nat) {g : List Node} (closed : Closed g) (f : Ffn) :
    Loads (g ++ [.hidden, .ffn il f g.length]) ↔ Loads g ∧ ¬f.Replaced := by
  constructor
  · intro loads
    refine ⟨loads_before closed loads, ?_⟩
    intro replaced
    obtain ⟨cur, found⟩ := loads il f g.length (by simp) replaced
    rw [List.getElem?_append_right (Nat.le_refl _), Nat.sub_self] at found
    cases found
  · rintro ⟨loads, kept⟩ il' f' input member replaced
    rcases List.mem_append.mp member with old | new
    · rw [getElem?_before (closed il' f' input old)]
      exact loads il' f' input old replaced
    · simp only [List.mem_cons, reduceCtorEq, Node.ffn.injEq, List.not_mem_nil, or_false,
        false_or] at new
      rw [new.2.1] at replaced
      exact absurd replaced kept

theorem loads_loaded {g : List Node} (closed : Closed g) (f : Ffn) :
    Loads (g ++ [.hidden, .dnload il g.length, .ffn il f (g.length + 1)]) ↔ Loads g := by
  constructor
  · exact loads_before closed
  · intro loads il' f' input member replaced
    rcases List.mem_append.mp member with old | new
    · rw [getElem?_before (closed il' f' input old)]
      exact loads il' f' input old replaced
    · simp only [List.mem_cons, reduceCtorEq, Node.ffn.injEq, List.not_mem_nil, or_false,
        false_or] at new
      obtain ⟨rfl, -, rfl⟩ := new
      refine ⟨g.length, ?_⟩
      have next : g.length + 1 - g.length = 1 := Nat.add_sub_cancel_left ..
      rw [List.getElem?_append_right (Nat.le_succ _), Nat.succ_eq_add_one, next]
      rfl

theorem Closed.append {g extra : List Node} (closed : Closed g)
    (inputs : ∀ il f input, .ffn il f input ∈ extra → input < g.length + extra.length) :
    Closed (g ++ extra) := by
  intro il f input member
  rw [List.length_append]
  rcases List.mem_append.mp member with old | new
  · exact (closed il f input old).trans_le (Nat.le_add_right _ _)
  · exact inputs il f input new

structure Built (m : Model) (dev : Device) (ctx il : Nat) (b b' : Builder) : Prop where
  setup : m.denseEnsure dev b'.setup = m.denseEnsure dev {}
  closed : Closed b'.nodes
  last : b'.last = if m.streamed dev il then some (ctx, il) else b.last
  loads : Loads b'.nodes ↔ Loads b.nodes ∧ (m.streamed dev il = true → b.last ≠ some (ctx, il))

theorem buildLayer_built (setup : m.denseEnsure dev b.setup = m.denseEnsure dev {})
    (closed : Closed b.nodes) (ctx il : Nat) :
    Built m dev ctx il b (m.buildLayer dev ctx b il) := by
  have replaced : (m.buildFfn dev (m.denseEnsure dev {}) il).Replaced ↔
      m.replaces dev (m.denseEnsure dev {}) il = true := replaced_iff
  have plain : Closed (b.nodes ++ [.hidden, .ffn il (m.buildFfn dev (m.denseEnsure dev {}) il)
      b.nodes.length]) := by
    apply closed.append
    intro il' f' input new
    simp only [List.mem_cons, reduceCtorEq, Node.ffn.injEq, List.not_mem_nil, or_false,
      false_or] at new
    simp [new.2.2]
  have kept := loads_plain il closed (m.buildFfn dev (m.denseEnsure dev {}) il)
  unfold Model.buildLayer
  rw [setup]
  dsimp only
  cases streams : m.replaces dev (m.denseEnsure dev {}) il with
  | false =>
      have off : m.streamed dev il = false := streams
      rw [streams] at replaced
      rw [if_neg nofun]
      refine ⟨denseEnsure_idle m dev, ?_, ?_, ?_⟩
      · simpa using plain
      · rw [off, if_neg nofun]
      · rw [off]
        simp only [List.append_assoc, List.cons_append, List.nil_append, Bool.false_eq_true,
          false_implies, and_true]
        exact kept.trans (and_iff_left fun yes => nomatch replaced.mp yes)
  | true =>
      have on : m.streamed dev il = true := streams
      rw [streams] at replaced
      rw [if_pos rfl]
      simp only [buildDenseLoad]
      by_cases again : b.last = some (ctx, il)
      · rw [if_pos again]
        refine ⟨denseEnsure_idle m dev, ?_, ?_, ?_⟩
        · simpa using plain
        · rw [on, if_pos rfl]
          exact again
        · simp only [List.append_assoc, List.cons_append, List.nil_append]
          apply iff_of_false
          · exact fun loads => (kept.mp loads).2 (replaced.mpr rfl)
          · exact fun both => both.2 on again
      · rw [if_neg again]
        refine ⟨denseEnsure_idle m dev, ?_, ?_, ?_⟩
        · simp only [List.append_assoc, List.cons_append, List.nil_append, List.length_append,
            List.length_singleton]
          apply closed.append
          intro il' f' input new
          simp only [List.mem_cons, reduceCtorEq, Node.ffn.injEq, List.not_mem_nil, or_false,
            false_or] at new
          simp [new.2.2]
        · rw [on, if_pos rfl]
        · simp only [List.append_assoc, List.cons_append, List.nil_append, List.length_append,
            List.length_singleton]
          rw [loads_loaded closed]
          exact (and_iff_left fun _ => again).symm

/-! ## All graphs -/

theorem closed_nil : Closed [] := fun _ _ _ member => absurd member List.not_mem_nil

theorem loads_nil : Loads [] := fun _ _ _ member => absurd member List.not_mem_nil

theorem cons_chain {last : Option (Nat × Nat)} {call : Nat × Nat} {calls : List (Nat × Nat)} :
    (last.toList ++ call :: calls).IsChain (· ≠ ·) ↔
      last ≠ some call ∧ ((some call).toList ++ calls).IsChain (· ≠ ·) := by
  cases last with
  | none => simp
  | some before => simp [List.isChain_cons_cons]

theorem buildLayers_chain (ctx : Nat) (layers : List Nat) (rest : List (Nat × Nat)) (b : Builder)
    (setup : m.denseEnsure dev b.setup = m.denseEnsure dev {}) (closed : Closed b.nodes) :
    let b' := layers.foldl (m.buildLayer dev ctx) b
    m.denseEnsure dev b'.setup = m.denseEnsure dev {} ∧
      (Loads b'.nodes ∧ (b'.last.toList ++ rest).IsChain (· ≠ ·) ↔
        Loads b.nodes ∧ (b.last.toList ++
          ((layers.filter (m.streamed dev)).map fun il => (ctx, il)) ++ rest).IsChain (· ≠ ·)) := by
  induction layers generalizing b with
  | nil =>
      refine ⟨setup, ?_⟩
      simp
  | cons il layers ih =>
      have built := buildLayer_built setup closed ctx il
      obtain ⟨later, chain⟩ := ih (m.buildLayer dev ctx b il) built.setup built.closed
      refine ⟨later, ?_⟩
      rw [List.foldl_cons, chain, built.loads, built.last]
      cases streams : m.streamed dev il with
      | false =>
          rw [List.filter_cons_of_neg (by rw [streams]; decide), if_neg nofun]
          simp
      | true =>
          rw [List.filter_cons_of_pos streams, if_pos rfl, List.map_cons, List.append_assoc,
            List.append_assoc, List.cons_append, cons_chain]
          simp only [forall_const, and_assoc]

theorem graphs_chain (builds : List Build) (b : Builder)
    (setup : m.denseEnsure dev b.setup = m.denseEnsure dev {}) :
    (∀ g ∈ m.graphs dev b builds, Loads g) ↔
      (b.last.toList ++ m.loadCalls dev builds).IsChain (· ≠ ·) := by
  induction builds generalizing b with
  | nil =>
      apply iff_of_true
      · exact fun g member => absurd member List.not_mem_nil
      · cases b.last <;> simp [Model.loadCalls]
  | cons build rest ih =>
      obtain ⟨later, chain⟩ := buildLayers_chain build.ctx build.layers
        (m.loadCalls dev rest) { b with nodes := [] } setup closed_nil
      have calls : m.loadCalls dev (build :: rest) =
          ((build.layers.filter (m.streamed dev)).map fun il => (build.ctx, il)) ++
            m.loadCalls dev rest := List.flatMap_cons
      simp only [Model.graphs]
      rw [List.forall_mem_cons, ih (m.buildGraph dev b build) later, calls, ← List.append_assoc]
      exact chain.trans (and_iff_right loads_nil)

/-- A load op is present in every graph that needs it exactly when no two
consecutive calls name the same context and layer. -/
theorem graphs_load_iff (m : Model) (dev : Device) (builds : List Build) :
    (∀ g ∈ m.graphs dev {} builds, Loads g) ↔ (m.loadCalls dev builds).IsChain (· ≠ ·) :=
  graphs_chain builds {} rfl

/-- When every graph has the same layers in order, more than one streamed layer
is enough, and a single one needs a new context each time. -/
theorem same_layers_iff {layers : List Nat} (ordered : layers.Pairwise (· < ·)) (ctxs : List Nat) :
    (m.loadCalls dev (ctxs.map fun ctx => ⟨ctx, layers⟩)).IsChain (· ≠ ·) ↔
      (layers.filter (m.streamed dev)).length ≠ 1 ∨ ctxs.IsChain (· ≠ ·) := by
  have ordered := ordered.filter (m.streamed dev)
  simp only [Model.loadCalls]
  rw [List.flatMap_map]
  dsimp only
  generalize layers.filter (m.streamed dev) = streams at ordered ⊢
  match streams with
  | [] =>
      have none : (ctxs.flatMap fun ctx => ([] : List Nat).map fun il => (ctx, il)) = [] :=
        List.flatMap_eq_nil_iff.mpr fun _ _ => rfl
      rw [none]
      exact iff_of_true List.IsChain.nil (Or.inl (by decide))
  | [il] =>
      have single : (ctxs.flatMap fun ctx => [il].map fun il => (ctx, il)) =
          ctxs.map fun ctx => (ctx, il) := List.flatMap_pure_eq_map _ _
      rw [single, List.isChain_map]
      simp
  | il :: next :: rest =>
      apply iff_of_true ?_ (Or.inl (by simp))
      rw [List.flatMap_def, List.isChain_flatten (by simp), List.isChain_map]
      constructor
      · intro calls listed
        obtain ⟨ctx, _, rfl⟩ := List.mem_map.mp listed
        rw [List.isChain_map]
        exact (ordered.imp fun less same => Nat.ne_of_lt less (Prod.mk.inj same).2).isChain
      · apply List.Pairwise.isChain
        apply List.pairwise_of_forall
        intro ctx ctx' x last y first same
        simp only [List.map_cons, List.head?_cons, Option.mem_some_iff] at first
        subst first
        -- the last streamed layer of a graph comes after the first
        have later : x ∈ (next :: rest).map fun il => (ctx, il) := by
          rw [List.map_cons, List.map_cons, List.getLast?_cons_cons] at last
          exact List.mem_of_getLast? last
        obtain ⟨il', member, rfl⟩ := List.mem_map.mp later
        have less := (List.pairwise_cons.mp ordered).1 il' member
        exact Nat.ne_of_gt less (Prod.mk.inj same).2

/-- Two graphs for the one streamed layer of a model, the second in a context
at the address of the first: its FFN multiplies arena tensors without a load. -/
theorem reused_context :
    (mixedModel 12 144).streamed umaDevice 0 = true ∧
      ¬∀ g ∈ (mixedModel 12 144).graphs umaDevice {} [⟨1, [0]⟩, ⟨1, [0]⟩], Loads g := by
  have streamed : (mixedModel 12 144).streamed umaDevice 0 = true := by decide +kernel
  refine ⟨streamed, ?_⟩
  intro loads
  have chain := (graphs_chain [⟨1, [0]⟩, ⟨1, [0]⟩] {} rfl).mp loads
  simp [Model.loadCalls, streamed] at chain

end MoeStream.Dense
