import MoeStream.Foundation.Refinement
import MoeStream.Inference.DenseStreamed

/-!
# The dense streamed model computes what the resident one does

While an FFN runs over the arena, its layer is computing there and each byte it
reads is the byte of the weight in the file.  Every other FFN multiplies by what
was loaded.
-/

set_option autoImplicit false

namespace MoeStream.Dense.Inference

open Foundation Foundation.Refinement

structure Fit (m : Model) (dev : Device) (preads : (DenseInfo → Nat → Nat → Int) → Prop) :
    Prop where
  loadable : m.Loadable
  serves : m.Serves dev
  inside : ∀ t ∈ m.tensors, t.fileIdx < dev.files.length
  reads : ∀ pread, preads pread → ∀ t ∈ m.tensors, ∀ place, m.streams t = some place →
    Advances t.nbytes (pread (t.info place.2))
  answers : ∃ pread, preads pread

variable {B X : Type} {net : Network B X} {m : Model} {dev : Device}
  {preads : (DenseInfo → Nat → Nat → Int) → Prop} {junk : DenseTensor → Nat → Byte}
  {s s' : Machine B X} {il : Nat} {role : Role}

theorem Fit.complete (fit : Fit m dev preads) (pread : DenseInfo → Nat → Nat → Int)
    (io : preads pread) : (m.arena dev).Complete pread := by
  intro il w registered info claimed
  have weights : (m.arena dev).weights il = m.loaded.weights.find il := rfl
  rw [weights, weights_find] at registered
  split at registered
  · cases registered
  · cases registered
    obtain ⟨t, member, role, streams, rfl⟩ := mem_infos.mp claimed
    refine ⟨?_, (fit.reads pread io t member _ streams).rangeWhole _⟩
    rcases fit.serves with none | ⟨works, -⟩
    · rw [none t member] at streams
      cases streams
    · have known := fit.inside t member
      change dev.files.getD t.fileIdx false = true
      rw [List.getD_eq_getElem?_getD, List.getElem?_eq_getElem known, Option.getD_some]
      exact works.opened _ (List.getElem_mem known)

/-! ## The operands of an FFN -/

theorem Fit.operates (fit : Fit m dev preads) (il : Nat) (role : Role) :
    m.Operates dev il role ((m.ffn dev il).weight role) :=
  fit.serves.operates fit.loadable il role

def want (m : Model) (dev : Device) (il : Nat) : Look → Byte
  | (role, i) => (m.tensor il role).elim 0 fun t => fileByte dev t i

theorem mem_looks {f : Ffn} {i : Nat} :
    (role, i) ∈ f.looks ↔ ∃ w, f.weight role = some w ∧ i < w.bytes := by
  simp only [Ffn.looks, List.mem_flatMap]
  constructor
  · rintro ⟨role', -, listed⟩
    cases weight : f.weight role' with
    | none =>
        rw [weight] at listed
        cases listed
    | some w =>
        rw [weight] at listed
        obtain ⟨i', inside, same⟩ := List.mem_map.mp listed
        cases same
        exact ⟨w, weight, List.mem_range.mp inside⟩
  · rintro ⟨w, weight, inside⟩
    refine ⟨role, Role.mem_all role, ?_⟩
    rw [weight]
    exact List.mem_map.mpr ⟨i, List.mem_range.mpr inside, rfl⟩

def Runs (m : Model) (dev : Device) (phase : Phase) (il : Nat) : Prop :=
  if m.streamed dev il then phase = .computing il else phase = .idle

theorem Fit.look (fit : Fit m dev preads) {arena : State}
    (reachable : (m.arena dev).Reachable preads arena) (runs : Runs m dev arena.phase il)
    {look : Look} (listed : look ∈ (m.ffn dev il).looks) :
    (m.ffn dev il).look dev (m.arena dev).nbuf junk arena il look = want m dev il look := by
  obtain ⟨role, i⟩ := look
  obtain ⟨w, weight, inside⟩ := mem_looks.mp listed
  have operates := fit.operates il role
  rw [weight] at operates
  simp only [Ffn.look, want, weight, Option.elim_some]
  cases operates with
  | whole own =>
      rw [own]
      rfl
  | @arena t o own found =>
      rw [Runs, if_pos (streamed_of_arena weight)] at runs
      rw [own]
      exact arena_byte fit.complete reachable runs found inside

theorem Fit.matrices (fit : Fit m dev preads) {seen : Look → Byte}
    (sound : Gather.Sound (m.ffn dev il).looks (want m dev il) ⟨[], seen⟩) :
    (m.ffn dev il).matrices ⟨[], seen⟩ = m.matrices dev il := by
  funext role
  have operates := fit.operates il role
  have read : ∀ w, (m.ffn dev il).weight role = some w → ∀ i, i < w.bytes →
      seen (role, i) = want m dev il (role, i) :=
    fun w weight i inside => sound.done (mem_looks.mpr ⟨w, weight, inside⟩)
  rw [Ffn.matrices, Model.matrices]
  cases weight : (m.ffn dev il).weight role with
  | none =>
      rw [weight] at operates
      cases operates with
      | none absent => rw [absent, Option.map_none, Option.map_none]
  | some w =>
      rw [weight] at operates
      have bytes := read w weight
      cases operates with
      | whole own | arena own =>
          rw [own, Option.map_some, Option.map_some]
          congr 1
          apply List.map_congr_left
          intro i listed
          dsimp only
          rw [bytes i (List.mem_range.mp listed), want, own, Option.elim_some]

/-! ## The invariant -/

/-- The nodes that are left when none is at work, from position `n` on. -/
inductive Due (m : Model) (dev : Device) (phase : Phase) : Nat → List Node → Prop
  | layer {n layers} (idle : phase = .idle) : Due m dev phase n (m.plan dev n layers)
  | load {k il layers} (idle : phase = .idle) (streams : m.streamed dev il = true) :
      Due m dev phase (k + 1)
        (.dnload il k :: .ffn il (m.ffn dev il) (k + 1) :: m.plan dev (k + 3) layers)
  | ffn {k il layers} (runs : Runs m dev phase il) :
      Due m dev phase (k + 1) (.ffn il (m.ffn dev il) k :: m.plan dev (k + 2) layers)

def OpOk (m : Model) (dev : Device) (s : Machine B X) : Op X → Prop
  | .ready => Due m dev s.arena.phase s.values.length s.todo
  | .loading il => s.arena.phase.layer = some il ∧ m.streamed dev il = true ∧
      ∃ k layers, s.values.length = k + 1 ∧
        s.todo = .dnload il k :: .ffn il (m.ffn dev il) (k + 1) :: m.plan dev (k + 3) layers
  | .ffn v looks => v = s.x ∧ ∃ k il layers, s.values.length = k + 1 ∧
      s.todo = .ffn il (m.ffn dev il) k :: m.plan dev (k + 2) layers ∧
      Runs m dev s.arena.phase il ∧ Gather.Sound (m.ffn dev il).looks (want m dev il) looks

structure Good (m : Model) (dev : Device) (preads : (DenseInfo → Nat → Nat → Int) → Prop)
    (s : Machine B X) : Prop where
  arena : (m.arena dev).Reachable preads s.arena
  runs : ∀ run ∈ s.runs, run.1.2 = m.plan dev 0 run.1.1.layers
  last : ∀ v, s.values[s.values.length - 1]? = some v → v = s.x
  op : OpOk m dev s s.op

/-- A step of the arena within a layer lets the FFN of the layer run on. -/
theorem Runs.work {arena arena' : State} (step : Dense.Step (m.arena dev) preads arena arena')
    (own : arena'.phase.layer = arena.phase.layer) (runs : Runs m dev arena.phase il) :
    Runs m dev arena'.phase il := by
  simp only [Runs] at runs ⊢
  split
  · rename_i streams
    rw [if_pos streams] at runs
    exact step.beside runs own
  · rename_i plain
    rw [if_neg plain] at runs
    rw [runs] at own
    exact Phase.idle_of_layer own

theorem Due.work {arena arena' : State} (step : Dense.Step (m.arena dev) preads arena arena')
    (own : arena'.phase.layer = arena.phase.layer) {n : Nat} {nodes : List Node}
    (due : Due m dev arena.phase n nodes) : Due m dev arena'.phase n nodes := by
  have still : arena.phase = .idle → arena'.phase = .idle := by
    intro idle
    rw [idle] at own
    exact Phase.idle_of_layer own
  cases due with
  | layer idle => exact .layer (still idle)
  | load idle streams => exact .load (still idle) streams
  | ffn runs => exact .ffn (runs.work step own)

/-- The output of the last node is the value the graph goes on with. -/
theorem last_append (values : List X) (v : X) :
    ∀ w, (values ++ [v])[(values ++ [v]).length - 1]? = some w → w = v := by
  intro w found
  rw [List.length_append, List.length_singleton, Nat.add_sub_cancel,
    List.getElem?_append_right (Nat.le_refl _), Nat.sub_self] at found
  exact (Option.some.inj found).symm

theorem Good.input (good : Good m dev preads s) {k : Nat} (length : s.values.length = k + 1) :
    s.values[k]? = some s.x := by
  have bound : k < s.values.length := by omega
  have same := good.last (s.values[k])
  rw [length, Nat.add_sub_cancel] at same
  rw [List.getElem?_eq_getElem bound, same (List.getElem?_eq_getElem bound)]

section Nodes

variable {phase : Phase} {n : Nat} {todo : List Node}

theorem plan_hidden {layers : List Nat} {node : Node}
    (nodes : m.plan dev n layers = node :: todo) : node = .hidden := by
  cases layers with
  | nil => cases nodes
  | cons il rest =>
      rw [plan_cons] at nodes
      exact (List.cons.inj nodes).1.symm

theorem Due.done (due : Due m dev phase n []) : phase = .idle := by
  generalize all : ([] : List Node) = nodes at due
  cases due with
  | layer idle => exact idle
  | load | ffn => cases all

theorem Due.hidden (due : Due m dev phase n (.hidden :: todo)) : Due m dev phase (n + 1) todo := by
  generalize all : Node.hidden :: todo = nodes at due
  cases due with
  | load | ffn => cases all
  | @layer _ layers idle =>
      cases layers with
      | nil => cases all
      | cons il rest =>
          rw [plan_cons] at all
          split at all
          · rename_i streams
            cases all
            exact .load idle streams
          · rename_i plain
            cases all
            apply Due.ffn
            rw [Runs, if_neg plain]
            exact idle

theorem Due.dnload {input : Nat} (due : Due m dev phase n (.dnload il input :: todo)) :
    phase = .idle ∧ m.streamed dev il = true ∧ n = input + 1 ∧
      ∃ layers, todo = .ffn il (m.ffn dev il) (input + 1) :: m.plan dev (input + 3) layers := by
  generalize all : Node.dnload il input :: todo = nodes at due
  cases due with
  | ffn => cases all
  | layer => cases plan_hidden all.symm
  | @load _ _ layers idle streams =>
      cases all
      exact ⟨idle, streams, rfl, layers, rfl⟩

theorem Due.toFfn {input : Nat} {f : Ffn} (due : Due m dev phase n (.ffn il f input :: todo)) :
    Runs m dev phase il ∧ f = m.ffn dev il ∧ n = input + 1 ∧
      ∃ layers, todo = m.plan dev (input + 2) layers := by
  generalize all : Node.ffn il f input :: todo = nodes at due
  cases due with
  | load => cases all
  | layer => cases plan_hidden all.symm
  | @ffn _ _ layers runs =>
      cases all
      exact ⟨runs, rfl, rfl, layers, rfl⟩

end Nodes

theorem Step.good (fit : Fit m dev preads) (good : Good m dev preads s)
    (step : Step net m dev preads junk s s') : Good m dev preads s' := by
  have ok := good.op
  have reach : ∀ arena, Dense.Step (m.arena dev) preads s.arena arena →
      (m.arena dev).Reachable preads arena := by
    intro arena step
    obtain ⟨mem, run⟩ := good.arena
    exact ⟨mem, run.tail step⟩
  cases step with
  | @feed run runs ready done more =>
      rw [ready] at ok
      have idle : s.arena.phase = .idle := by
        rw [OpOk, done] at ok
        exact ok.done
      refine ⟨good.arena, ?_, ?_, ?_⟩
      · intro run' member
        apply good.runs
        rw [more]
        exact List.mem_cons_of_mem _ member
      · intro v found
        cases found
      · rw [OpOk.eq_def]
        simp only [ready]
        rw [good.runs run (by rw [more]; exact List.mem_cons_self)]
        exact .layer idle
  | @hidden todo ready next =>
      rw [ready, OpOk, next] at ok
      refine ⟨good.arena, good.runs, last_append _ _, ?_⟩
      rw [OpOk.eq_def]
      simp only [ready, List.length_append, List.length_singleton]
      exact ok.hidden
  | @insert il input todo arena ready next call waiting =>
      rw [ready, OpOk, next] at ok
      refine ⟨reach _ call, good.runs, good.last, ?_⟩
      obtain ⟨-, streams, length, layers, rfl⟩ := ok.dnload
      exact ⟨by rw [waiting]; rfl, streams, input, layers, length, next⟩
  | @work arena step own =>
      refine ⟨reach _ step, good.runs, good.last, ?_⟩
      cases op : s.op with
      | ready =>
          rw [op] at ok
          exact ok.work step own
      | loading il =>
          rw [op] at ok
          exact ⟨own.trans ok.1, ok.2⟩
      | ffn v looks =>
          rw [op] at ok
          obtain ⟨same, k, il, layers, length, next, runs, sound⟩ := ok
          exact ⟨same, k, il, layers, length, next, runs.work step own, sound⟩
  | @loaded il input todo v loading next computing value =>
      rw [loading] at ok
      obtain ⟨-, streams, k, layers, length, nodes⟩ := ok
      cases next.symm.trans nodes
      refine ⟨good.arena, good.runs, last_append _ _, ?_⟩
      simp only [OpOk, List.length_append, List.length_singleton, length]
      apply Due.ffn
      rw [Runs, if_pos streams]
      exact computing
  | @launch il f input todo v ready next value =>
      rw [ready, OpOk, next] at ok
      refine ⟨good.arena, good.runs, good.last, ?_⟩
      obtain ⟨runs, rfl, length, layers, rfl⟩ := ok.toFfn
      refine ⟨?_, input, il, layers, length, next, runs, Gather.Sound.start _ _ _⟩
      exact Option.some.inj (value.symm.trans (good.input length))
  | @read il f input todo v first look later seen at_work next =>
      rw [at_work] at ok
      obtain ⟨same, k, il', layers, length, nodes, runs, sound⟩ := ok
      cases next.symm.trans nodes
      exact ⟨good.arena, good.runs, good.last, same, input, il, layers, length, nodes, runs,
        sound.look fun listed => fit.look good.arena runs listed⟩
  | @plain il f input todo v seen done next idle =>
      rw [done] at ok
      obtain ⟨same, k, il', layers, length, nodes, runs, sound⟩ := ok
      cases next.symm.trans nodes
      refine ⟨good.arena, good.runs, last_append _ _, ?_⟩
      simp only [OpOk, List.length_append, List.length_singleton, length]
      exact .layer idle
  | @finish il f input todo v seen arena done next step at_work idle =>
      rw [done] at ok
      obtain ⟨same, k, il', layers, length, nodes, runs, sound⟩ := ok
      cases next.symm.trans nodes
      refine ⟨reach _ step, good.runs, last_append _ _, ?_⟩
      simp only [OpOk, List.length_append, List.length_singleton, length]
      exact .layer idle

/-! ## The resident model, step by step -/

theorem plan_stages (n : Nat) (layers : List Nat) :
    (m.plan dev n layers).filterMap nodeStage = stages layers := by
  induction layers generalizing n with
  | nil => rfl
  | cons il rest ih =>
      have layer : stages (il :: rest) = .hidden :: .ffn il :: stages rest := rfl
      rw [plan_cons, layer]
      split <;> simp [List.filterMap_cons, nodeStage, ih]

theorem Step.follows (fit : Fit m dev preads) (good : Good m dev preads s)
    (step : Step net m dev preads junk s s') : s'.progress = s.progress ∨
      (net.resident (m.matrices dev)).Next s.progress s'.progress := by
  have ok := good.op
  cases step with
  | @feed run runs ready done more =>
      right
      have planned := good.runs run (by rw [more]; exact List.mem_cons_self)
      simp only [Machine.progress, done, more, planned, plan_stages]
      exact Staged.Next.feed
  | @hidden todo ready next =>
      right
      simp only [Machine.progress, next, List.filterMap_cons, nodeStage]
      exact Staged.Next.stage
  | insert | work | launch | read => exact Or.inl rfl
  | @loaded il input todo v loading next computing value =>
      left
      rw [loading] at ok
      obtain ⟨-, -, k, layers, length, nodes⟩ := ok
      cases next.symm.trans nodes
      have same := Option.some.inj (value.symm.trans (good.input length))
      simp only [Machine.progress, next, same, List.filterMap_cons, nodeStage]
  | @plain il f input todo v seen done next idle =>
      right
      rw [done] at ok
      obtain ⟨same, k, il', layers, length, nodes, runs, sound⟩ := ok
      cases next.symm.trans nodes
      simp only [Machine.progress, next, same, fit.matrices sound, List.filterMap_cons, nodeStage]
      exact Staged.Next.stage
  | @finish il f input todo v seen arena done next step at_work idle =>
      right
      rw [done] at ok
      obtain ⟨same, k, il', layers, length, nodes, runs, sound⟩ := ok
      cases next.symm.trans nodes
      simp only [Machine.progress, next, same, fit.matrices sound, List.filterMap_cons, nodeStage]
      exact Staged.Next.stage

/-! ## What is left to do -/

def Op.rank : Op X → Nat
  | .ready => 2
  | .loading _ => 1
  | .ffn _ _ => 0

def Op.looksLeft : Op X → Nat
  | .ffn _ looks => looks.left.length
  | _ => 0

/-- The graphs and nodes, the node at work, the bytes it reads, and the load op
with its thread. -/
def Machine.size (s : Machine B X) : Nat ×ₗ Nat ×ₗ Nat ×ₗ Nat ×ₗ Nat ×ₗ Nat :=
  toLex ((s.runs.map fun run => run.1.2.length + 1).sum + s.todo.length,
    toLex (s.op.rank, toLex (s.op.looksLeft, s.arena.size)))

theorem Step.smaller (step : Step net m dev preads junk s s') : s'.size < s.size := by
  simp only [Machine.size, Prod.Lex.toLex_lt_toLex]
  cases step with
  | feed ready done more =>
      left
      simp only [done, more, List.map_cons, List.sum_cons, List.length_nil]
      omega
  | hidden ready next =>
      left
      simp [next]
  | insert ready next call waiting =>
      right
      simp [ready, Op.rank]
  | work step own => exact Or.inr ⟨rfl, Or.inr ⟨rfl, Or.inr ⟨rfl, step.smaller own⟩⟩⟩
  | loaded loading next computing value =>
      left
      simp [next]
  | launch ready next value =>
      right
      simp [ready, Op.rank]
  | read at_work next =>
      right
      simp [at_work, Op.rank, Op.looksLeft]
  | plain done next idle =>
      left
      simp [next]
  | finish done next step at_work idle =>
      left
      simp [next]

theorem Good.onward (fit : Fit m dev preads) (good : Good m dev preads s)
    {p : Progress (List Nat × B) Stage X} {weights : Nat → Matrices}
    (more : (net.resident weights).Next s.progress p) :
    ∃ s', Step net m dev preads junk s s' := by
  have ok := good.op
  obtain ⟨pread, io⟩ := fit.answers
  cases op : s.op with
  | ready =>
      rw [op] at ok
      cases todo : s.todo with
      | nil =>
          cases runs : s.runs with
          | nil =>
              simp only [Machine.progress, todo, runs] at more
              exact absurd more (Staged.next_end _ _)
          | cons run rest => exact ⟨_, .feed op todo runs⟩
      | cons node rest =>
          rw [OpOk, todo] at ok
          cases node with
          | hidden => exact ⟨_, .hidden op todo⟩
          | dnload il input =>
              obtain ⟨idle, streams, -⟩ := ok.dnload
              exact ⟨_, .insert op todo (.call idle (view_of_streamed streams)) rfl⟩
          | ffn il f input =>
              obtain ⟨-, -, length, -⟩ := ok.toFfn
              exact ⟨_, .launch op todo (good.input length)⟩
  | loading il =>
      rw [op] at ok
      obtain ⟨at_work, -, k, layers, length, next⟩ := ok
      by_cases computing : s.arena.phase = .computing il
      · exact ⟨_, .loaded op next computing (good.input length)⟩
      · obtain ⟨arena, step, own⟩ := load_onward io at_work computing
        exact ⟨_, .work step own⟩
  | ffn v looks =>
      rw [op] at ok
      obtain ⟨-, k, il, layers, -, next, runs, -⟩ := ok
      obtain ⟨left, seen⟩ := looks
      cases left with
      | nil =>
          rw [Runs] at runs
          split at runs
          · exact ⟨_, .finish op next (.finish runs) runs rfl⟩
          · exact ⟨_, .plain op next runs⟩
      | cons look rest =>
          have at_work : s.op = .ffn v ⟨[] ++ look :: rest, seen⟩ := op
          exact ⟨_, .read at_work next⟩

/-! ## Every run -/

theorem dense_refines (fit : Fit m dev preads) :
    Refines (Step net m dev preads junk) (net.resident (m.matrices dev)).Next Machine.progress
      (Good m dev preads) Machine.size where
  keeps := fun good step => step.good fit good
  follows := fun good step => step.follows fit good
  shrinks := fun _ step => step.smaller
  onward := fun good more => good.onward fit more

/-- A model whose stubs are replaced, run through graphs that have their load ops,
computes what it computes with its weights in memory: whatever the pieces the
reads come in, and in whatever order the graph, its FFNs, the load op and the
thread take their steps, every run ends, and ends with that result. -/
theorem dense_computes (fit : Fit m dev preads) (builds : List Build)
    (apart : (m.loadCalls dev builds).IsChain (· ≠ ·)) (mem : ArenaCell → Byte) (x : X)
    (runs : List ((Build × List Node) × B))
    (built : ∀ run ∈ runs, run.1 ∈ builds.zip (m.graphs dev {} builds)) :
    Computes (Step net m dev preads junk) Machine.progress (Machine.start mem x runs)
      ⟨(net.resident (m.matrices dev)).run x
        (runs.map fun run => (run.1.1.layers, run.2)), [], []⟩ := by
  have loads := (graphs_chain builds {} rfl).mpr apart
  have start : Good m dev preads (Machine.start mem x runs) := by
    refine ⟨⟨mem, .refl⟩, ?_, nofun, ?_⟩
    · intro run member
      have graph := built run member
      have pairs := List.zip_map' (f := id) (g := fun build : Build => m.plan dev 0 build.layers)
        (l := builds)
      rw [List.map_id] at pairs
      rw [graphs_plan builds rfl loads, pairs, List.mem_map] at graph
      obtain ⟨build, -, same⟩ := graph
      rw [← same]
      rfl
    · have none : Due m dev .idle 0 (m.plan dev 0 []) := .layer rfl
      exact none
  apply (dense_refines fit).computes Staged.next_deterministic start
  · exact Staged.next_run x _
  · exact fun p => Staged.next_end _ p

/-! The layer of two weights whose bytes are added up. -/

theorem mixed_serves : (mixedModel 12 144).Serves umaDevice := by
  have streams : (mixedModel 12 144).tensors.map (mixedModel 12 144).streams =
      [some (0, .up), some (0, .down)] := by decide +kernel
  have served : ∀ role, (role = .up ∨ role = .down) →
      ∃ t ∈ (mixedModel 12 144).tensors, (mixedModel 12 144).streams t = some (0, role) := by
    intro role own
    apply List.mem_map.mp
    rw [streams]
    rcases own with rfl | rfl <;> simp
  right
  refine ⟨umaDevice_works _, ?_⟩
  intro t member il role streamed
  have listed := List.mem_map.mpr ⟨t, member, streamed⟩
  rw [streams] at listed
  have zero : il = 0 := by
    simp only [List.mem_cons, Option.some.injEq, Prod.mk.injEq, List.not_mem_nil, or_false]
      at listed
    rcases listed with own | own <;> exact own.1
  rw [zero]
  exact ⟨served .up (Or.inl rfl), served .down (Or.inr rfl)⟩

def progressing (pread : DenseInfo → Nat → Nat → Int) : Prop :=
  ∀ info, Advances info.bytes (pread info)

theorem mixed_fit : Fit (mixedModel 12 144) umaDevice progressing where
  loadable := mixedModel_loadable 12 144
  serves := mixed_serves
  inside := by
    intro t member
    simp only [mixedModel, List.mem_cons, List.not_mem_nil, or_false] at member
    rcases member with rfl | rfl <;> exact Nat.one_pos
  reads := fun pread io t member place streams => io (t.info place.2)
  answers := by
    refine ⟨fullReads, fun info => ⟨?_, fun o left => le_refl _⟩⟩
    intro o left positive _
    exact Int.natCast_pos.mpr positive

def sumNetwork : Network Nat Nat where
  feed := fun b x => b + x
  hidden := Nat.succ
  ffn := fun _ x matrices => x + ((Role.all.flatMap fun role => (matrices role).getD []).map
    UInt8.toNat).sum

/-- Three batches through two graphs, the first of them run again. -/
theorem mixed_computes :
    let m := mixedModel 12 144
    let builds : List Build := [⟨1, [0]⟩, ⟨2, [0]⟩]
    let graphs := builds.zip (m.graphs umaDevice {} builds)
    Computes (Step sumNetwork m umaDevice progressing fun _ _ => 0) Machine.progress
      (Machine.start (fun _ => 255) 0 ((graphs ++ graphs).zip [3, 5, 3]))
      ⟨(sumNetwork.resident (m.matrices umaDevice)).run 0
        (((graphs ++ graphs).zip [3, 5, 3]).map fun run => (run.1.1.layers, run.2)), [], []⟩ := by
  refine dense_computes mixed_fit [⟨1, [0]⟩, ⟨2, [0]⟩] ?_ _ _ _ ?_
  · cases streams : (mixedModel 12 144).streamed umaDevice 0 <;>
      simp [Model.loadCalls, streams]
  · rintro ⟨graph, batch⟩ member
    have listed := (List.of_mem_zip member).1
    rw [List.mem_append, or_self] at listed
    exact listed

end MoeStream.Dense.Inference
