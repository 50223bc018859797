import MoeStream.Arena.Prefill
import MoeStream.Foundation.DoubleBuffer

/-!
# What the GPU reads from the prefill arena

The prefill path is an instance of loading into shared buffers: buffer
`il % g_pf_nbuf` belongs to layer `il`, the items are the experts, and the
thread of `pf_kick` works for the next layer, whose buffer is another one.
Every step of the source is a step of that protocol.
-/

set_option autoImplicit false

namespace MoeStream.Prefill

open Foundation Foundation.Writes

variable {a : Arena} {preads : (ReadJob → Nat → Nat → Int) → Prop}

/-! ## Offsets -/

theorem expert_inside {e n i width : Nat} (expert : e < n) (inside : i < width) :
    e * width + i < width * n := by
  have next : (e + 1) * width ≤ n * width := Nat.mul_le_mul_right width expert
  rw [Nat.add_mul, Nat.one_mul, Nat.mul_comm n] at next
  omega

/-- The end of each role's region is the start of the next one, or the end of
the layer. -/
theorem arenaOff_inside (L : LayerSlabs) (role : Role) :
    arenaOff L role + tensorBytes (L.role role) ≤ layerBytes L := by
  cases role <;> simp only [arenaOff, layerBytes, LayerSlabs.role] <;> omega

theorem arenaOff_apart {L : LayerSlabs} {role role' : Role} {x x' : Nat}
    (inside : x < tensorBytes (L.role role)) (inside' : x' < tensorBytes (L.role role'))
    (same : arenaOff L role + x = arenaOff L role' + x') : role = role' := by
  cases role <;> cases role' <;> simp only [arenaOff, LayerSlabs.role] at * <;> omega

theorem layerBytes_le {il : Nat} {L : LayerSlabs} (registered : a.layers il = some L) :
    layerBytes L ≤ a.arenaBytes :=
  (le_layMax (a.last registered) (by rw [registered]; rfl)).trans (le_pageUp _)

section Layer

variable {il : Nat} {L : LayerSlabs} (registered : a.layers il = some L)

include registered

theorem byte_inside {role : Role} {e i : Nat} (expert : e < L.gate.nExpert)
    (inside : i < (L.role role).expertBytes) :
    e * (L.role role).expertBytes + i < tensorBytes (L.role role) := by
  simp only [tensorBytes]
  rw [a.shaped registered role]
  exact expert_inside expert inside

theorem dst_inj {role role' : Role} {e e' i i' : Nat} (expert : e < L.gate.nExpert)
    (expert' : e' < L.gate.nExpert) (inside : i < (L.role role).expertBytes)
    (inside' : i' < (L.role role').expertBytes)
    (same : a.dst il L role e i = a.dst il L role' e' i') : role = role' ∧ e = e' ∧ i = i' := by
  have offsets := (Prod.mk.inj same).2
  rw [Nat.add_assoc, Nat.add_assoc] at offsets
  have roles := arenaOff_apart (byte_inside registered expert inside)
    (byte_inside registered expert' inside') offsets
  subst roles
  exact ⟨rfl, slot_inj inside inside' (Nat.add_left_cancel offsets)⟩

end Layer

/-! ## The items of a layer -/

def Arena.expertWrites (a : Arena) (il e : Nat) : List (ArenaCell × Byte) :=
  (a.layers il).elim [] fun L =>
    if e < L.gate.nExpert then
      Role.all.flatMap fun role =>
        region (a.dst il L role e) (L.role role).expertBytes (a.shards.expert (L.role role) e)
    else []

theorem mem_expertWrites {il e : Nat} {cell : ArenaCell} {b : Byte} :
    (cell, b) ∈ a.expertWrites il e ↔
      ∃ L, a.layers il = some L ∧ e < L.gate.nExpert ∧ ∃ role i,
        i < (L.role role).expertBytes ∧ cell = a.dst il L role e i ∧
        b = a.shards.expert (L.role role) e i := by
  simp only [Arena.expertWrites]
  cases layer : a.layers il with
  | none => simp
  | some L =>
      simp only [Option.elim_some, Option.some.injEq, exists_eq_left']
      split
      · rename_i expert
        simp only [List.mem_flatMap, mem_region]
        constructor
        · rintro ⟨role, _, byte⟩
          exact ⟨expert, role, byte⟩
        · rintro ⟨_, role, byte⟩
          exact ⟨role, by cases role <;> simp [Role.all], byte⟩
      · rename_i outside
        constructor
        · intro member
          cases member
        · intro expert
          exact absurd expert.1 outside

def Arena.layout (a : Arena) : DoubleBuffer.Layout Nat Nat Nat ArenaCell Byte where
  buf := fun il => il % a.nbuf
  owner := Prod.fst
  writes := a.expertWrites
  inside := by
    intro il e cell b member
    obtain ⟨L, _, _, role, i, _, cell, _⟩ := mem_expertWrites.mp member
    rw [cell]
    rfl
  agree := by
    intro il e e' cell b b' member member'
    obtain ⟨L, registered, expert, role, i, inside, place, value⟩ := mem_expertWrites.mp member
    obtain ⟨L', registered', expert', role', i', inside', place', value'⟩ :=
      mem_expertWrites.mp member'
    cases Option.some.inj (registered.symm.trans registered')
    obtain ⟨rfl, rfl, rfl⟩ :=
      dst_inj registered expert expert' inside inside' (place.symm.trans place')
    rw [value, value']

def Arena.wants (a : Arena) (il : Nat) (need : Option (Nat → Bool)) (e : Nat) : Prop :=
  ∃ L, a.layers il = some L ∧ e < L.gate.nExpert ∧ need.elim true (fun need => need e) = true

def Residency.records (g : Residency) : DoubleBuffer.Records Nat Nat Nat :=
  ⟨g.arenaLayer, fun bi e => g.arenaHave bi e = true⟩

/-- Reads that come back whole, for every registered tensor. -/
def Arena.Complete (a : Arena) (pread : ReadJob → Nat → Nat → Int) : Prop :=
  ∀ il L, a.layers il = some L → ∀ job : ReadJob, Whole a.shards (L.role job.role) (pread job)

theorem loadLayerArena_load (complete : ∀ pread, preads pread → a.Complete pread) {il : Nat}
    {need : Option (Nat → Bool)} {g : Residency} {pread : ReadJob → Nat → Nat → Int}
    (io : preads pread) (registered : (a.layers il).isSome) :
    DoubleBuffer.Load a.layout il (a.wants il need) g.records
      (a.loadLayerArena il need g).1.records
      (a.reads il pread (a.loadLayerArena il need g).2) := by
  obtain ⟨L, layer⟩ := Option.isSome_iff_exists.mp registered
  have whole := complete pread io il L layer
  simp only [Arena.loadLayerArena, Arena.reads, layer, Option.elim_some]
  set kept : Nat → Bool :=
    if g.arenaLayer (il % a.nbuf) = some il then g.arenaHave (il % a.nbuf) else fun _ => false
    with keptIs
  refine ⟨?_, ?_, ?_, ?_, ?_⟩
  · exact Function.update_self _ _ _
  · intro bi other
    exact ⟨Function.update_of_ne other _ _,
      congrArg (fun have' e => have' e = true) (Function.update_of_ne other _ g.arenaHave)⟩
  · rintro ⟨cell, b⟩ member
    obtain ⟨job, listed, read⟩ := List.mem_flatMap.mp member
    obtain ⟨e, missing, member⟩ := List.mem_flatMap.mp listed
    obtain ⟨role, _, rfl⟩ := List.mem_map.mp member
    obtain ⟨expert, _⟩ := List.mem_filter.mp missing
    obtain ⟨i, inside, place, value⟩ := (mem_doRead (whole _)).mp read
    exact ⟨e, mem_expertWrites.mpr
      ⟨L, layer, List.mem_range.mp expert, role, i, inside, place, value⟩⟩
  · intro e recorded
    simp only [Residency.records, Arena.layout, Function.update_self, Bool.or_eq_true,
      decide_eq_true_eq] at recorded ⊢
    rcases recorded with before | missing
    · left
      rw [keptIs] at before
      split at before
      · rename_i same
        exact ⟨same, before⟩
      · cases before
    · right
      rintro ⟨cell, b⟩ member
      obtain ⟨L', layer', _, role, i, inside, place, value⟩ := mem_expertWrites.mp member
      cases Option.some.inj (layer.symm.trans layer')
      apply List.mem_flatMap.mpr
      refine ⟨⟨role, e, 0, none⟩, ?_, (mem_doRead (whole _)).mpr ⟨i, inside, place, value⟩⟩
      apply List.mem_flatMap.mpr
      exact ⟨e, missing, List.mem_map.mpr ⟨role, by cases role <;> simp [Role.all], rfl⟩⟩
  · rintro e ⟨L', layer', expert, asked⟩
    cases Option.some.inj (layer.symm.trans layer')
    simp only [Residency.records, Arena.layout, Function.update_self, Bool.or_eq_true,
      decide_eq_true_eq]
    cases present : kept e with
    | true => exact Or.inl rfl
    | false =>
        right
        apply List.mem_filter.mpr
        exact ⟨List.mem_range.mpr expert, by rw [asked, present]; rfl⟩

/-! ## The steps of the source -/

def Thread.task (a : Arena) : Thread → DoubleBuffer.Task Nat Nat ArenaCell Byte
  | .kicked il hint => .queued il (a.wants il hint)
  | .loading il pending => .reading il pending

def Phase.user (a : Arena) : Phase → DoubleBuffer.Phase Nat Nat ArenaCell Byte
  | .idle => .idle
  | .waiting call => .waiting call.il (a.wants call.il (a.need call))
  | .loading call pending => .reading call.il (a.wants call.il (a.need call)) pending
  | .computing call => .running call.il (a.wants call.il (a.need call))

def State.protocol (a : Arena) (s : State) : DoubleBuffer.State Nat Nat Nat ArenaCell Byte :=
  ⟨s.mem, s.residency.records, s.thread.map (Thread.task a), s.phase.user a⟩

def Phase.call : Phase → Option Call
  | .idle => none
  | .waiting call => some call
  | .loading call _ => some call
  | .computing call => some call

/-- What holds besides the protocol: layers at work are layers of the arena, the
ids of the current call are copied, and no thread is left while the op reads or
on a path that does not overlap. -/
structure Formed (a : Arena) (s : State) : Prop where
  alone : a.overlapped = false → s.thread = none
  waited : ∀ {call pending}, s.phase = .loading call pending → s.thread = none
  user : ∀ {call}, s.phase.call = some call → (a.layers call.il).isSome
  helper : ∀ {il hint}, s.thread = some (.kicked il hint) → (a.layers il).isSome
  copied : ∀ {call}, s.phase.call = some call → ∀ j k, j < call.ids.ne1 → k < call.ids.ne0 →
    s.dst (j * call.ids.ne0 + k) = call.ids.at j k

theorem copyIds_at (ids : Ids) (dst : Nat → Int) {j k : Nat} (row : j < ids.ne1)
    (column : k < ids.ne0) : copyIds ids dst (j * ids.ne0 + k) = ids.at j k := by
  have written : (j * ids.ne0 + k, ids.at j k) ∈ (List.range ids.ne1).flatMap fun j =>
      region (fun k => j * ids.ne0 + k) ids.ne0 (ids.at j) :=
    List.mem_flatMap.mpr ⟨j, List.mem_range.mpr row, mem_region.mpr ⟨k, column, rfl, rfl⟩⟩
  apply applyWrites_eq dst _ written
  intro v member
  obtain ⟨j', _, member⟩ := List.mem_flatMap.mp member
  obtain ⟨k', column', place, value⟩ := mem_region.mp member
  obtain ⟨rfl, rfl⟩ := slot_inj column column' place
  exact value

theorem pfKick_some {a : Arena} {il : Nat} {prev : Nat → Option (Nat → Bool)} {thread : Thread}
    (kick : a.pfKick il prev = some thread) :
    a.overlapped = true ∧ (a.layers il).isSome ∧ ∃ hint, thread = .kicked il hint := by
  simp only [Arena.pfKick] at kick
  split at kick
  · cases kick
  · rename_i overlapped
    cases layer : a.layers il with
    | none =>
        rw [layer] at kick
        cases kick
    | some L =>
        rw [layer] at kick
        exact ⟨not_not.mp overlapped, rfl, _, (Option.some.inj kick).symm⟩

theorem joined_none {thread : Option Thread} (alone : a.overlapped = false → thread = none) :
    (if a.overlapped then none else thread) = none := by
  split
  · rfl
  · rename_i sync
    exact alone (Bool.eq_false_of_not_eq_true sync)

theorem start_formed (mem : ArenaCell → Byte) (prev : Nat → Option (Nat → Bool))
    (dst : Nat → Int) : Formed a (State.start mem prev dst) where
  alone := fun _ => rfl
  waited := fun _ => rfl
  user := by
    intro call at_work
    cases at_work
  helper := by
    intro il hint thread
    cases thread
  copied := by
    intro call at_work
    cases at_work

theorem Step.formed {s s' : State} (step : Step a preads s s') (formed : Formed a s) :
    Formed a s' := by
  have keep : ∀ {phase : Phase} (phase' : Phase), s.phase = phase → phase.call = phase'.call →
      (∀ {call}, phase'.call = some call → (a.layers call.il).isSome) ∧
      ∀ {call}, phase'.call = some call → ∀ j k, j < call.ids.ne1 → k < call.ids.ne0 →
        s.dst (j * call.ids.ne0 + k) = call.ids.at j k := by
    intro phase phase' current same
    rw [← same, ← current]
    exact ⟨formed.user, formed.copied⟩
  cases step with
  | @call call idle inserted =>
      refine ⟨formed.alone, ?_, ?_, formed.helper, ?_⟩
      · intro call' pending at_work
        cases at_work
      · intro call' at_work
        cases at_work
        exact inserted
      · intro call' at_work j k row column
        cases at_work
        exact copyIds_at call.ids s.dst row column
  | @load call pread waiting wait io =>
      have kept := keep (.loading call (a.reads call.il pread
        (a.loadLayerArena call.il (a.need call) s.residency).2)) waiting rfl
      refine ⟨?_, ?_, kept.1, ?_, kept.2⟩
      · intro sync
        rw [sync]
        exact formed.alone sync
      · intro call' pending _
        exact joined_none formed.alone
      · intro il hint thread
        dsimp only at thread
        split at thread
        · cases thread
        · exact formed.helper thread
  | @read call first rest w loading =>
      have kept := keep (.loading call (first ++ rest)) loading rfl
      exact ⟨formed.alone, fun _ => formed.waited loading, kept.1, formed.helper, kept.2⟩
  | @launch call loaded =>
      have kept := keep (.computing call) loaded rfl
      refine ⟨?_, ?_, kept.1, ?_, kept.2⟩
      · intro sync
        simp only [Arena.leaves, sync]
        exact formed.alone sync
      · intro call' pending at_work
        cases at_work
      · intro il hint thread
        simp only [Arena.leaves] at thread
        split at thread
        · obtain ⟨_, inserted, hint', same⟩ := pfKick_some thread
          cases same
          exact inserted
        · exact formed.helper thread
  | start kicked io =>
      refine ⟨?_, ?_, formed.user, ?_, formed.copied⟩
      · intro sync
        rw [formed.alone sync] at kicked
        cases kicked
      · intro call pending at_work
        rw [formed.waited at_work] at kicked
        cases kicked
      · intro il hint thread
        cases thread
  | fetch loading =>
      refine ⟨?_, ?_, formed.user, ?_, formed.copied⟩
      · intro sync
        rw [formed.alone sync] at loading
        cases loading
      · intro call pending at_work
        rw [formed.waited at_work] at loading
        cases loading
      · intro il hint thread
        cases thread
  | @finish call computing =>
      refine ⟨formed.alone, ?_, ?_, formed.helper, ?_⟩
      · intro call' pending at_work
        cases at_work
      · intro call' at_work
        cases at_work
      · intro call' at_work
        cases at_work

theorem overlapped_two (overlapped : a.overlapped = true) : 2 ≤ a.nbuf := by
  simp only [Arena.overlapped, Bool.and_eq_true, decide_eq_true_eq] at overlapped
  exact overlapped.2

theorem joined_finished {thread : Option Thread} (joined : Joined thread) :
    DoubleBuffer.Finished (thread.map (Thread.task a)) := by
  cases thread with
  | none => trivial
  | some thread =>
      cases thread with
      | kicked => exact absurd joined id
      | loading => exact joined

theorem Step.protocol (complete : ∀ pread, preads pread → a.Complete pread) {s s' : State}
    (step : Step a preads s s') (formed : Formed a s) :
    DoubleBuffer.Step a.layout (s.protocol a) (s'.protocol a) := by
  cases step with
  | @call call idle inserted =>
      exact .call (s := s.protocol a) (by simp only [State.protocol, idle, Phase.user])
  | @load call pread waiting wait io =>
      have joined : DoubleBuffer.Finished (s.thread.map (Thread.task a)) := by
        cases overlapped : a.overlapped with
        | true => exact joined_finished (wait overlapped)
        | false =>
            rw [formed.alone overlapped]
            trivial
      have inserted : (a.layers call.il).isSome := formed.user (by rw [waiting]; rfl)
      have phase : (s.protocol a).phase = .waiting call.il (a.wants call.il (a.need call)) := by
        simp only [State.protocol, waiting, Phase.user]
      have next : DoubleBuffer.Step a.layout (s.protocol a) _ :=
        .load phase joined (loadLayerArena_load complete io inserted)
      simp only [State.protocol, joined_none formed.alone]
      exact next
  | @read call first rest w loading =>
      exact .read (s := s.protocol a) (by simp only [State.protocol, loading, Phase.user])
  | @launch call loaded =>
      have read : (s.protocol a).phase =
          .reading call.il (a.wants call.il (a.need call)) [] := by
        simp only [State.protocol, loaded, Phase.user]
      by_cases large : a.overlapped = true ∧ 256 ≤ call.ids.ne1
      · simp only [State.protocol, Arena.leaves, if_pos large]
        cases kick : a.pfKick (call.il + 1) s.prevUnion with
        | none =>
            have run : DoubleBuffer.Step a.layout (s.protocol a) _ := .run read
            simp only [State.protocol, formed.waited loaded] at run ⊢
            exact run
        | some thread =>
            obtain ⟨overlapped, _, hint, rfl⟩ := pfKick_some kick
            exact .kick read (next_apart (overlapped_two overlapped) call.il)
      · simp only [State.protocol, Arena.leaves, if_neg large]
        exact .run read
  | @start il hint pread kicked io =>
      exact .start (s := s.protocol a) (by simp only [State.protocol, kicked]; rfl)
        (loadLayerArena_load complete io (formed.helper kicked))
  | @fetch il first rest w loading =>
      exact .fetch (s := s.protocol a) (by simp only [State.protocol, loading]; rfl)
  | @finish call computing =>
      have running : (s.protocol a).phase = .running call.il (a.wants call.il (a.need call)) := by
        simp only [State.protocol, computing, Phase.user]
      exact .finish running

theorem reachable_safe (complete : ∀ pread, preads pread → a.Complete pread) {s : State}
    (reachable : a.Reachable preads s) :
    Formed a s ∧ DoubleBuffer.Safe a.layout (s.protocol a) := by
  obtain ⟨mem, prev, dst, run⟩ := reachable
  induction run with
  | refl => exact ⟨start_formed mem prev dst, DoubleBuffer.start_safe (fun _ => rfl) rfl rfl⟩
  | tail _ step ih =>
      obtain ⟨formed, safe⟩ := ih
      exact ⟨step.formed formed, (step.protocol complete formed).safe safe⟩

/-! ## While `mul_mat_id` runs -/

/-- The ids and, for every expert they name, the bytes of each role. -/
structure Serves (a : Arena) (call : Call) (s : State) : Prop where
  ids : ∀ j k, j < call.ids.ne1 → k < call.ids.ne0 →
    s.dst (j * call.ids.ne0 + k) = call.ids.at j k
  bytes : ∀ {L}, a.layers call.il = some L → ∀ {j k e}, j < call.ids.ne1 → k < call.ids.ne0 →
    call.ids.at j k = (e : Nat) → e < L.gate.nExpert →
    ∀ role i, i < (L.role role).expertBytes →
      s.mem (call.il % a.nbuf, arenaOff L role + e * (L.role role).expertBytes + i) =
        a.shards.expert (L.role role) e i

/-- The regions of a layer lie in its buffer, apart from each other. -/
structure LaidOut (a : Arena) (L : LayerSlabs) : Prop where
  inside : ∀ role, arenaOff L role + tensorBytes (L.role role) ≤ a.arenaBytes
  apart : ∀ role role', role ≠ role' → ∀ x x', x < tensorBytes (L.role role) →
    x' < tensorBytes (L.role role') → arenaOff L role + x ≠ arenaOff L role' + x'

theorem laidOut {il : Nat} {L : LayerSlabs} (registered : a.layers il = some L) :
    LaidOut a L where
  inside := fun role => (arenaOff_inside L role).trans (layerBytes_le registered)
  apart := fun _ _ different _ _ inside inside' same =>
    different (arenaOff_apart inside inside' same)

theorem Ids.mem_list {ids : Ids} {j k : Nat} (row : j < ids.ne1) (column : k < ids.ne0) :
    ids.at j k ∈ ids.list :=
  List.mem_flatMap.mpr ⟨j, List.mem_range.mpr row,
    List.mem_map.mpr ⟨k, List.mem_range.mpr column, rfl⟩⟩

theorem wants_named {call : Call} {L : LayerSlabs} (registered : a.layers call.il = some L)
    {j k e : Nat} (row : j < call.ids.ne1) (column : k < call.ids.ne0)
    (named : call.ids.at j k = (e : Nat)) (expert : e < L.gate.nExpert) :
    a.wants call.il (a.need call) e := by
  have member := Ids.mem_list row column
  rw [named] at member
  refine ⟨L, registered, expert, ?_⟩
  simp only [Arena.need]
  split
  · exact decide_eq_true member
  · rfl

/-- Whenever the GPU multiplies by a layer of the arena, the buffer of the layer
holds every expert the ids name, and no step of any party writes it until the
multiplication is done. -/
theorem prefill_serves (complete : ∀ pread, preads pread → a.Complete pread) {s : State}
    (reachable : a.Reachable preads s) {call : Call} (computing : s.phase = .computing call) :
    Serves a call s ∧
    (∀ L, a.layers call.il = some L → LaidOut a L) ∧
    ∀ s', Step a preads s s' →
      (s'.phase = .computing call ∨ s'.phase = .idle) ∧ s'.dst = s.dst ∧
      ∀ off, s'.mem (call.il % a.nbuf, off) = s.mem (call.il % a.nbuf, off) := by
  obtain ⟨formed, safe⟩ := reachable_safe complete reachable
  have running : (s.protocol a).phase = .running call.il (a.wants call.il (a.need call)) := by
    simp only [State.protocol, computing, Phase.user]
  refine ⟨⟨?_, ?_⟩, fun L => laidOut, ?_⟩
  · exact formed.copied (by rw [computing]; rfl)
  · intro L registered j k e row column named expert role i inside
    have wanted := wants_named registered row column named expert
    exact safe.resident running wanted
      (mem_expertWrites.mpr ⟨L, registered, expert, role, i, inside, rfl, rfl⟩)
  · intro s' step
    refine ⟨?_, ?_, ?_⟩
    · cases step with
      | start | fetch => exact Or.inl computing
      | finish => exact Or.inr rfl
      | call current | load current | read current | launch current =>
          rw [computing] at current
          cases current
    · cases step with
      | call idle =>
          rw [computing] at idle
          cases idle
      | _ => rfl
    · intro off
      exact (step.protocol complete formed).untouched safe running rfl

/-! ## A run -/

theorem reads_end {call : Call} (pending : List (ArenaCell × Byte)) {s : State}
    (loading : s.phase = .loading call pending) :
    ∃ s', Relation.ReflTransGen (Step a preads) s s' ∧ s'.phase = .loading call [] := by
  induction pending generalizing s with
  | nil => exact ⟨s, .refl, loading⟩
  | cons w rest ih =>
      have first : Step a preads s { s with
          mem := Function.update s.mem w.1 w.2, phase := .loading call ([] ++ rest) } :=
        .read loading
      obtain ⟨s', run, loaded⟩ := ih (s := { s with
        mem := Function.update s.mem w.1 w.2, phase := .loading call ([] ++ rest) }) rfl
      exact ⟨s', .head first run, loaded⟩

theorem waiting_computes {s : State} {call : Call} {pread : ReadJob → Nat → Nat → Int}
    (waiting : s.phase = .waiting call) (alone : s.thread = none) (io : preads pread) :
    ∃ s', Relation.ReflTransGen (Step a preads) s s' ∧ s'.phase = .computing call := by
  have wait : a.overlapped → Joined s.thread := by
    intro _
    rw [alone]
    trivial
  have load : Step a preads s _ := .load waiting wait io
  have ends : ∃ s', Relation.ReflTransGen (Step a preads) { s with
      residency := (a.loadLayerArena call.il (a.need call) s.residency).1
      thread := if a.overlapped then none else s.thread
      phase := .loading call
        (a.reads call.il pread (a.loadLayerArena call.il (a.need call) s.residency).2) } s' ∧
      s'.phase = .loading call [] := reads_end _ rfl
  obtain ⟨s', run, loaded⟩ := ends
  exact ⟨_, .head load (run.tail (.launch loaded)), rfl⟩

theorem op_computes {s : State} {call : Call} {pread : ReadJob → Nat → Nat → Int}
    (idle : s.phase = .idle) (alone : s.thread = none) (inserted : (a.layers call.il).isSome)
    (io : preads pread) :
    ∃ s', Relation.ReflTransGen (Step a preads) s s' ∧ s'.phase = .computing call := by
  have called : Step a preads s { s with
      dst := copyIds call.ids s.dst
      prevUnion := a.keepUnion call s.prevUnion
      phase := .waiting call } := .call idle inserted
  have computes : ∃ s', Relation.ReflTransGen (Step a preads) { s with
      dst := copyIds call.ids s.dst
      prevUnion := a.keepUnion call s.prevUnion
      phase := .waiting call } s' ∧ s'.phase = .computing call := waiting_computes rfl alone io
  obtain ⟨s', run, computing⟩ := computes
  exact ⟨s', .head called run, computing⟩

/-- Two layers of one expert with one byte a role, and two arenas. -/
def pairArena : Arena where
  layers := fun il =>
    if il < 2 then some ⟨⟨true, 0, 1, 1, 0⟩, ⟨true, 1, 1, 1, 0⟩, ⟨true, 2, 1, 1, 0⟩, true⟩ else none
  nLayer := 2
  nbuf := 2
  async := true
  prefetch := true
  shards := ⟨fun _ => true, fun _ i => (i + 1).toUInt8⟩
  last := by
    intro il L registered
    by_contra outside
    rw [if_neg outside] at registered
    cases registered
  allocated := Nat.two_pos
  shaped := by
    intro il L registered role
    split at registered
    · cases registered
      cases role <;> rfl
    · cases registered

/-- A batch of 256 tokens that all want expert 0 of layer 0. -/
def pairCall : Call := ⟨0, ⟨1, 256, 4, 4, fun _ => 0⟩⟩

def fullReads : ReadJob → Nat → Nat → Int := fun _ _ left => left

theorem prefill_serves_pair :
    ∃ s, s.phase = .computing pairCall ∧ Serves pairArena pairCall s := by
  have complete : ∀ pread, pread = fullReads → pairArena.Complete pread := by
    rintro pread rfl il L registered job
    simp only [pairArena] at registered
    split at registered
    · cases registered
      refine ⟨?_, readLoop_full _⟩
      cases job.role <;> rfl
    · cases registered
  have runs : ∃ s, Relation.ReflTransGen (Step pairArena fun pread => pread = fullReads)
      (State.start (fun _ => 255) (fun _ => none) fun _ => 0) s ∧ s.phase = .computing pairCall :=
    op_computes rfl rfl rfl rfl
  obtain ⟨s, run, computing⟩ := runs
  have reachable : pairArena.Reachable (fun pread => pread = fullReads) s :=
    ⟨fun _ => 255, fun _ => none, fun _ => 0, run⟩
  exact ⟨s, computing, (prefill_serves complete reachable computing).1⟩

end MoeStream.Prefill
