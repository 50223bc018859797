import MoeStream.Graph.DenseLoad

/-!
# What a graph with its load ops consists of

When no FFN with replaced weights lacks its load op, a graph is its layers one
after another, each with its load op if it is streamed.  What its FFNs multiply by
are then weights of the file, as a whole or in the arena, and no stubs.
-/

set_option autoImplicit false

namespace MoeStream.Dense

/-! ## The nodes of a graph -/

variable (m : Model) (dev : Device)

def Model.ffn (il : Nat) : Ffn := m.buildFfn dev (m.denseEnsure dev {}) il

/-- The nodes of a layer from position `n` on. -/
def Model.layerNodes (n il : Nat) : List Node :=
  if m.streamed dev il then [.hidden, .dnload il n, .ffn il (m.ffn dev il) (n + 1)]
  else [.hidden, .ffn il (m.ffn dev il) n]

/-- The nodes of a graph from position `n` on. -/
def Model.plan : Nat → List Nat → List Node
  | _, [] => []
  | n, il :: rest =>
      m.layerNodes dev n il ++ Model.plan (n + (m.layerNodes dev n il).length) rest

variable {m dev} {b : Builder} {ctx il : Nat}

theorem plan_cons (n il : Nat) (rest : List Nat) :
    m.plan dev n (il :: rest) =
      .hidden ::
        if m.streamed dev il then
          .dnload il n :: .ffn il (m.ffn dev il) (n + 1) :: m.plan dev (n + 3) rest
        else .ffn il (m.ffn dev il) n :: m.plan dev (n + 2) rest := by
  rw [Model.plan, Model.layerNodes]
  split <;> rfl

theorem buildLayer_nodes (setup : m.denseEnsure dev b.setup = m.denseEnsure dev {})
    (fresh : m.streamed dev il = true → b.last ≠ some (ctx, il)) :
    (m.buildLayer dev ctx b il).nodes = b.nodes ++ m.layerNodes dev b.nodes.length il := by
  have own : m.replaces dev (m.denseEnsure dev {}) il = m.streamed dev il := rfl
  rw [Model.buildLayer, setup, Model.layerNodes]
  dsimp only
  rw [own]
  cases streams : m.streamed dev il with
  | false => simp [Model.ffn]
  | true => simp [buildDenseLoad, fresh streams, Model.ffn]

/-- A graph whose FFNs have their load ops had them after each layer. -/
theorem loads_first (layers : List Nat) (setup : m.denseEnsure dev b.setup = m.denseEnsure dev {})
    (closed : Closed b.nodes) (loads : Loads (layers.foldl (m.buildLayer dev ctx) b).nodes) :
    Loads b.nodes := by
  induction layers generalizing b with
  | nil => exact loads
  | cons il rest ih =>
      have built := buildLayer_built setup closed ctx il
      exact (built.loads.mp (ih built.setup built.closed loads)).1

theorem buildLayers_plan (layers : List Nat)
    (setup : m.denseEnsure dev b.setup = m.denseEnsure dev {}) (closed : Closed b.nodes)
    (loads : Loads (layers.foldl (m.buildLayer dev ctx) b).nodes) :
    (layers.foldl (m.buildLayer dev ctx) b).nodes = b.nodes ++ m.plan dev b.nodes.length layers ∧
      m.denseEnsure dev (layers.foldl (m.buildLayer dev ctx) b).setup = m.denseEnsure dev {} := by
  induction layers generalizing b with
  | nil =>
      refine ⟨?_, setup⟩
      simp [Model.plan]
  | cons il rest ih =>
      have built := buildLayer_built setup closed ctx il
      have first := loads_first rest built.setup built.closed loads
      have nodes := buildLayer_nodes setup (built.loads.mp first).2
      obtain ⟨later, settled⟩ := ih built.setup built.closed loads
      refine ⟨?_, settled⟩
      rw [List.foldl_cons, later, nodes, List.length_append, List.append_assoc, Model.plan]

theorem graphs_plan (builds : List Build)
    (setup : m.denseEnsure dev b.setup = m.denseEnsure dev {})
    (loads : ∀ g ∈ m.graphs dev b builds, Loads g) :
    m.graphs dev b builds = builds.map fun build => m.plan dev 0 build.layers := by
  induction builds generalizing b with
  | nil => rfl
  | cons build rest ih =>
      have first := loads _ List.mem_cons_self
      obtain ⟨nodes, settled⟩ := buildLayers_plan (b := { b with nodes := [] }) build.layers setup
        closed_nil first
      rw [Model.graphs, List.map_cons]
      congr 1
      apply ih settled
      exact fun g member => loads g (List.mem_cons_of_mem _ member)

/-! ## The operands of an FFN -/

def Model.tensor (m : Model) (il : Nat) (role : Role) : Option DenseTensor :=
  m.tensors.find? fun t => decide (parseDenseAny t.name dnMinBytes = some ((il : Int), role))

variable {role : Role}

theorem substitute_cases (a : Arena) (active : Bool) (f : Ffn) (role : Role) :
    (a.substitute active il f).weight role = f.weight role ∨
      ∃ v, (a.substitute active il f).weight role = some (.arena v) ∧
        a.denseFfn il role = some v := by
  rw [Arena.substitute]
  split
  · split
    · rename_i up down hasUp hasDown
      cases role with
      | gate =>
          simp only [Ffn.weight]
          split
          · rename_i gate hasGate
            exact Or.inr ⟨_, rfl, hasGate⟩
          · exact Or.inl rfl
      | up => exact Or.inr ⟨up, rfl, hasUp⟩
      | down => exact Or.inr ⟨down, rfl, hasDown⟩
    · exact Or.inl rfl
  · exact Or.inl rfl

theorem ffn_cases (m : Model) (dev : Device) (il : Nat) (role : Role) :
    (m.ffn dev il).weight role = m.weight il role ∨
      ∃ v, (m.ffn dev il).weight role = some (.arena v) ∧
        (m.arena dev).denseFfn il role = some v := by
  rcases substitute_cases _ _ _ role with same | replaced
  · exact Or.inl (same.trans (by cases role <;> rfl))
  · exact Or.inr replaced

/-- What an FFN multiplies by: nothing where the file has nothing, else the weight
of the file, as it was loaded or in the arena. -/
inductive Model.Operates (m : Model) (dev : Device) (il : Nat) (role : Role) :
    Option Operand → Prop
  | none (absent : m.tensor il role = none) : Operates m dev il role none
  | whole {t} (own : m.tensor il role = some t) : Operates m dev il role (some (.whole t))
  | arena {t o} (own : m.tensor il role = some t)
      (found : (m.arena dev).denseFfn il role = some { t.info role with arenaOff := some o }) :
      Operates m dev il role (some (.arena { t.info role with arenaOff := some o }))

theorem tensor_of_streams (loadable : m.Loadable) {t : DenseTensor} (member : t ∈ m.tensors)
    (streams : m.streams t = some ((il : Int), role)) : m.tensor il role = some t := by
  have named := (streams_min streams).1
  cases found : m.tensor il role with
  | none =>
      have skipped := List.find?_eq_none.mp found t member
      simp [named] at skipped
  | some t' =>
      have own := List.find?_some found
      rw [decide_eq_true_eq] at own
      rw [loadable.single t' (List.mem_of_find?_eq_some found) t member _ own named]

theorem denseFfn_tensor (loadable : m.Loadable) {v : DenseInfo}
    (found : (m.arena dev).denseFfn il role = some v) :
    ∃ t o, m.tensor il role = some t ∧ v = { t.info role with arenaOff := some o } := by
  obtain ⟨o, chosen⟩ := denseFfn_eq m dev il role
  rw [found] at chosen
  obtain ⟨info, listed, rfl⟩ := Option.map_eq_some_iff.mp chosen.symm
  obtain ⟨t, member, role', streams, rfl⟩ := mem_infos.mp (List.mem_of_find?_eq_some listed)
  have own := List.find?_some listed
  simp only [DenseTensor.info, Bool.true_and, beq_iff_eq, Option.some.injEq] at own
  subst own
  exact ⟨t, o, tensor_of_streams loadable member streams, rfl⟩

/-- No FFN of a model whose stubs are replaced multiplies by a stub. -/
theorem Model.Serves.operates (serves : m.Serves dev) (loadable : m.Loadable) (il : Nat)
    (role : Role) : m.Operates dev il role ((m.ffn dev il).weight role) := by
  rcases ffn_cases m dev il role with own | ⟨v, replaced, found⟩
  · have weight : m.weight il role = (m.tensor il role).map fun t =>
        if t.name ∈ m.loaded.claims.claimed then .stub t else .whole t := rfl
    cases tensor : m.tensor il role with
    | none =>
        rw [own, weight, tensor]
        exact .none tensor
    | some t =>
        rw [tensor, Option.map_some] at weight
        by_cases claimed : t.name ∈ m.loaded.claims.claimed
        · -- a stub would have been replaced
          have member := List.mem_of_find?_eq_some tensor
          have named := List.find?_some tensor
          rw [decide_eq_true_eq] at named
          obtain ⟨place, streams⟩ :=
            Option.isSome_iff_exists.mp ((mem_claimed loadable member).mp claimed)
          have same : place = ((il : Int), role) :=
            Option.some.inj ((streams_min streams).1.symm.trans named)
          subst same
          obtain ⟨o, arena⟩ := serves.substituted loadable 0 t member claimed il role
            (streams_place streams).2
          rw [setup_eq] at arena
          rw [if_pos claimed] at weight
          cases (own.symm.trans arena).symm.trans weight
        · rw [if_neg claimed] at weight
          rw [own, weight]
          exact .whole tensor
  · obtain ⟨t, o, tensor, rfl⟩ := denseFfn_tensor loadable found
    rw [replaced]
    exact .arena tensor found

theorem streamed_of_arena {v : DenseInfo} (replaced : (m.ffn dev il).weight role = some
    (.arena v)) :
    m.streamed dev il = true :=
  replaced_iff.mp ⟨role, v, replaced⟩

theorem view_of_streamed (streams : m.streamed dev il = true) : ((m.arena dev).view il).isSome := by
  simp only [Model.streamed, Model.replaces, Bool.and_eq_true] at streams
  obtain ⟨v, found⟩ := Option.isSome_iff_exists.mp streams.2
  obtain ⟨view, shown, -⟩ := denseFfn_view found
  rw [shown]
  rfl

end MoeStream.Dense
