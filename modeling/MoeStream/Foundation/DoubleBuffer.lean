import Mathlib.Logic.Relation
import MoeStream.Foundation.Writes

/-!
# Loading into shared buffers with one helper thread

A user works through layers.  Before it uses a layer it asks for some of the
layer's items; those that are not recorded as loaded are read into the layer's
buffer, and while the layer is in use one helper thread may read another layer
into another buffer.  What is loaded is known from the records only: the layer
each buffer was last given to, and the items recorded since.

A state is safe when each recorded item is in memory or still to be written.
Every step keeps that, so in every reachable state the items in use are in
memory, and no step writes the buffer in use.
-/

set_option autoImplicit false

namespace MoeStream.Foundation.DoubleBuffer

open Foundation.Writes

/-- Where the items of each layer go.  Distinct layers may share a buffer;
within one layer the writes to a cell agree. -/
structure Layout (Layer Buf Item Cell Value : Type) where
  buf : Layer → Buf
  owner : Cell → Buf
  writes : Layer → Item → List (Cell × Value)
  inside : ∀ {l i c v}, (c, v) ∈ writes l i → owner c = buf l
  agree : ∀ {l i j c v w}, (c, v) ∈ writes l i → (c, w) ∈ writes l j → v = w

variable {Layer Buf Item Cell Value : Type}

/-- The layer each buffer was given to, and the items recorded as loaded. -/
structure Records (Layer Buf Item : Type) where
  tag : Buf → Option Layer
  loaded : Buf → Item → Prop

inductive Task (Layer Item Cell Value : Type) where
  | queued (l : Layer) (hint : Item → Prop)
  | reading (l : Layer) (pending : List (Cell × Value))

/-- The user: between layers, waiting for the helper, reading what is missing,
or using a layer. -/
inductive Phase (Layer Item Cell Value : Type) where
  | idle
  | waiting (l : Layer) (need : Item → Prop)
  | reading (l : Layer) (need : Item → Prop) (pending : List (Cell × Value))
  | running (l : Layer) (need : Item → Prop)

structure State (Layer Buf Item Cell Value : Type) where
  mem : Cell → Value
  records : Records Layer Buf Item
  task : Option (Task Layer Item Cell Value)
  phase : Phase Layer Item Cell Value

def Task.layer : Task Layer Item Cell Value → Layer
  | .queued l _ => l
  | .reading l _ => l

def Task.pending : Task Layer Item Cell Value → List (Cell × Value)
  | .queued _ _ => []
  | .reading _ pending => pending

def Finished : Option (Task Layer Item Cell Value) → Prop
  | none => True
  | some (.queued _ _) => False
  | some (.reading _ pending) => pending = []

/-- One load: the buffer is given to the layer, and what is recorded afterwards
was recorded for this layer before or is among the writes to come. -/
structure Load (layout : Layout Layer Buf Item Cell Value) (l : Layer) (need : Item → Prop)
    (before after : Records Layer Buf Item) (pending : List (Cell × Value)) : Prop where
  tagged : after.tag (layout.buf l) = some l
  others : ∀ b, b ≠ layout.buf l → after.tag b = before.tag b ∧ after.loaded b = before.loaded b
  sound : ∀ {w}, w ∈ pending → ∃ i, w ∈ layout.writes l i
  covered : ∀ {i}, after.loaded (layout.buf l) i →
    (before.tag (layout.buf l) = some l ∧ before.loaded (layout.buf l) i) ∨
      ∀ w ∈ layout.writes l i, w ∈ pending
  asked : ∀ {i}, need i → after.loaded (layout.buf l) i

variable [DecidableEq Cell] {layout : Layout Layer Buf Item Cell Value}

/-- The steps of the user and of the helper, in any interleaving. -/
inductive Step (layout : Layout Layer Buf Item Cell Value) :
    State Layer Buf Item Cell Value → State Layer Buf Item Cell Value → Prop
  | call {s} {l : Layer} {need : Item → Prop} (idle : s.phase = .idle) :
      Step layout s { s with phase := .waiting l need }
  | load {s} {l : Layer} {need : Item → Prop} {records : Records Layer Buf Item}
      {pending : List (Cell × Value)} (waiting : s.phase = .waiting l need)
      (joined : Finished s.task) (load : Load layout l need s.records records pending) :
      Step layout s
        { s with records := records, task := none, phase := .reading l need pending }
  | read {s} {l : Layer} {need : Item → Prop} {first rest : List (Cell × Value)}
      {w : Cell × Value} (reading : s.phase = .reading l need (first ++ w :: rest)) :
      Step layout s { s with
        mem := Function.update s.mem w.1 w.2, phase := .reading l need (first ++ rest) }
  | run {s} {l : Layer} {need : Item → Prop} (read : s.phase = .reading l need []) :
      Step layout s { s with phase := .running l need }
  | kick {s} {l ahead : Layer} {need hint : Item → Prop} (read : s.phase = .reading l need [])
      (apart : layout.buf ahead ≠ layout.buf l) :
      Step layout s { s with task := some (.queued ahead hint), phase := .running l need }
  | start {s} {l : Layer} {hint : Item → Prop} {records : Records Layer Buf Item}
      {pending : List (Cell × Value)} (queued : s.task = some (.queued l hint))
      (load : Load layout l hint s.records records pending) :
      Step layout s { s with records := records, task := some (.reading l pending) }
  | fetch {s} {l : Layer} {first rest : List (Cell × Value)} {w : Cell × Value}
      (reading : s.task = some (.reading l (first ++ w :: rest))) :
      Step layout s { s with
        mem := Function.update s.mem w.1 w.2, task := some (.reading l (first ++ rest)) }
  | finish {s} {l : Layer} {need : Item → Prop} (running : s.phase = .running l need) :
      Step layout s { s with phase := .idle }

/-! ## Safety -/

def Phase.pending : Phase Layer Item Cell Value → List (Cell × Value)
  | .reading _ _ pending => pending
  | _ => []

def State.pending (s : State Layer Buf Item Cell Value) : List (Cell × Value) :=
  s.phase.pending ++ s.task.elim [] Task.pending

def Served (layout : Layout Layer Buf Item Cell Value) (records : Records Layer Buf Item)
    (l : Layer) (need : Item → Prop) : Prop :=
  records.tag (layout.buf l) = some l ∧ ∀ i, need i → records.loaded (layout.buf l) i

/-- What the phase of the user says of the records and of the helper. -/
def Phase.Consistent (layout : Layout Layer Buf Item Cell Value)
    (s : State Layer Buf Item Cell Value) : Phase Layer Item Cell Value → Prop
  | .idle => True
  | .waiting _ _ => True
  | .reading l need pending =>
      s.task = none ∧ Served layout s.records l need ∧
        ∀ w ∈ pending, ∃ i, w ∈ layout.writes l i
  | .running l need =>
      Served layout s.records l need ∧
        ∀ task, s.task = some task → layout.buf task.layer ≠ layout.buf l

structure Safe (layout : Layout Layer Buf Item Cell Value)
    (s : State Layer Buf Item Cell Value) : Prop where
  tagged : ∀ {b l}, s.records.tag b = some l → layout.buf l = b
  held : ∀ {b l i}, s.records.tag b = some l → s.records.loaded b i →
    ∀ {c v}, (c, v) ∈ layout.writes l i → s.mem c = v ∨ (c, v) ∈ s.pending
  task : ∀ {l pending}, s.task = some (.reading l pending) →
    s.records.tag (layout.buf l) = some l ∧ ∀ w ∈ pending, ∃ i, w ∈ layout.writes l i
  phase : s.phase.Consistent layout s

omit [DecidableEq Cell] in
theorem start_safe {s : State Layer Buf Item Cell Value} (empty : ∀ b, s.records.tag b = none)
    (alone : s.task = none) (idle : s.phase = .idle) : Safe layout s := by
  refine ⟨?_, ?_, ?_, ?_⟩
  · intro b l tag
    rw [empty b] at tag
    cases tag
  · intro b l i tag
    rw [empty b] at tag
    cases tag
  · intro l pending task
    rw [alone] at task
    cases task
  · rw [idle]
    trivial

/-- Recorded items stay in memory or to be written when one pending write is
performed. -/
theorem Safe.written {s : State Layer Buf Item Cell Value} (safe : Safe layout s)
    {l l' : Layer} {i i' : Item} {w : Cell × Value} {pending : List (Cell × Value)}
    (tag : s.records.tag (layout.buf l) = some l) (sound : w ∈ layout.writes l i)
    (left : ∀ x ∈ s.pending, x = w ∨ x ∈ pending) {b : Buf}
    (tag' : s.records.tag b = some l') (loaded : s.records.loaded b i') {c : Cell} {v : Value}
    (member : (c, v) ∈ layout.writes l' i') :
    Function.update s.mem w.1 w.2 c = v ∨ (c, v) ∈ pending := by
  by_cases same : c = w.1
  · subst same
    have place : layout.buf l' = layout.buf l :=
      (layout.inside member).symm.trans (layout.inside (v := w.2) sound)
    have layers : l' = l := by
      rw [← safe.tagged tag', place, tag] at tag'
      exact (Option.some.inj tag').symm
    subst layers
    rw [Function.update_self]
    exact Or.inl (layout.agree (v := w.2) sound member)
  · rw [Function.update_of_ne same]
    rcases safe.held tag' loaded member with value | waiting
    · exact Or.inl value
    · rcases left _ waiting with rfl | later
      · exact absurd rfl same
      · exact Or.inr later

omit [DecidableEq Cell] in
/-- A load that starts when no write is pending records nothing that is neither
in memory nor to be written. -/
theorem Safe.recorded {s : State Layer Buf Item Cell Value} (safe : Safe layout s)
    {l l' : Layer} {need : Item → Prop} {after : Records Layer Buf Item}
    {pending : List (Cell × Value)} (load : Load layout l need s.records after pending)
    (quiet : s.pending = []) {b : Buf} {i : Item} (tag : after.tag b = some l')
    (loaded : after.loaded b i) {c : Cell} {v : Value} (member : (c, v) ∈ layout.writes l' i) :
    s.mem c = v ∨ (c, v) ∈ pending := by
  have old : s.records.tag b = some l' → s.records.loaded b i → s.mem c = v := by
    intro tagged recorded
    rcases safe.held tagged recorded member with value | waiting
    · exact value
    · rw [quiet] at waiting
      cases waiting
  by_cases own : b = layout.buf l
  · subst own
    have layers : l = l' := Option.some.inj (load.tagged.symm.trans tag)
    subst layers
    rcases load.covered loaded with ⟨before, recorded⟩ | covered
    · exact Or.inl (old before recorded)
    · exact Or.inr (covered _ member)
  · obtain ⟨tagSame, loadedSame⟩ := load.others b own
    exact Or.inl (old (tagSame ▸ tag) (loadedSame ▸ loaded))

omit [DecidableEq Cell] in
theorem Safe.retagged {s : State Layer Buf Item Cell Value} (safe : Safe layout s)
    {l l' : Layer} {need : Item → Prop} {after : Records Layer Buf Item}
    {pending : List (Cell × Value)} (load : Load layout l need s.records after pending)
    {b : Buf} (tag : after.tag b = some l') : layout.buf l' = b := by
  by_cases own : b = layout.buf l
  · subst own
    rw [Option.some.inj (load.tagged.symm.trans tag)]
  · rw [(load.others b own).1] at tag
    exact safe.tagged tag

omit [DecidableEq Cell] in
theorem Served.kept {l l' : Layer} {need need' : Item → Prop}
    {before after : Records Layer Buf Item} {pending : List (Cell × Value)}
    (served : Served layout before l need) (load : Load layout l' need' before after pending)
    (apart : layout.buf l' ≠ layout.buf l) : Served layout after l need := by
  obtain ⟨tag, loaded⟩ := load.others (layout.buf l) apart.symm
  refine ⟨tag.trans served.1, ?_⟩
  intro i wanted
  rw [loaded]
  exact served.2 i wanted

omit [DecidableEq Cell] in
/-- As long as the pending writes are the same, what is recorded is held. -/
theorem Safe.held_kept {s : State Layer Buf Item Cell Value} (safe : Safe layout s)
    {task : Option (Task Layer Item Cell Value)} {phase : Phase Layer Item Cell Value}
    (pending : State.pending { s with task := task, phase := phase } = s.pending)
    {b : Buf} {l : Layer} {i : Item} (tag : s.records.tag b = some l)
    (loaded : s.records.loaded b i) {c : Cell} {v : Value} (member : (c, v) ∈ layout.writes l i) :
    s.mem c = v ∨ (c, v) ∈ State.pending { s with task := task, phase := phase } := by
  rw [pending]
  exact safe.held tag loaded member

omit [DecidableEq Cell] in
/-- A step of the helper that keeps what is in use keeps the user's phase sound. -/
theorem Safe.helped {s s' : State Layer Buf Item Cell Value} (safe : Safe layout s)
    (phase : s'.phase = s.phase) {task task' : Task Layer Item Cell Value}
    (present : s.task = some task) (present' : s'.task = some task')
    (layer : task'.layer = task.layer)
    (kept : ∀ {l need}, layout.buf task.layer ≠ layout.buf l → Served layout s.records l need →
      Served layout s'.records l need) : s'.phase.Consistent layout s' := by
  have consistent := safe.phase
  rw [phase]
  cases current : s.phase with
  | idle => trivial
  | waiting => trivial
  | reading =>
      rw [current] at consistent
      rw [consistent.1] at present
      cases present
  | running l need =>
      rw [current] at consistent
      obtain ⟨served, others⟩ := consistent
      have apart := others task present
      refine ⟨kept apart served, ?_⟩
      intro other same
      rw [← Option.some.inj (present'.symm.trans same), layer]
      exact apart

theorem Step.safe {s s' : State Layer Buf Item Cell Value} (step : Step layout s s')
    (safe : Safe layout s) : Safe layout s' := by
  have consistent := safe.phase
  cases step with
  | call idle =>
      refine ⟨safe.tagged, safe.held_kept ?_, safe.task, trivial⟩
      simp only [State.pending, idle, Phase.pending]
  | @load l need records pending waiting joined load =>
      have quiet : s.pending = [] := by
        simp only [State.pending, waiting, Phase.pending, List.nil_append]
        cases task : s.task with
        | none => rfl
        | some task' =>
            rw [task] at joined
            cases task' with
            | queued => exact absurd joined id
            | reading => exact joined
      refine ⟨safe.retagged load, ?_, ?_, rfl, ⟨load.tagged, fun i => load.asked⟩,
        fun w => load.sound⟩
      · intro b l' i tag loaded c v member
        rcases safe.recorded load quiet tag loaded member with value | later
        · exact Or.inl value
        · exact Or.inr (List.mem_append_left _ later)
      · intro l' pending' task
        cases task
  | @read l need first rest w reading =>
      rw [reading] at consistent
      obtain ⟨alone, served, sound⟩ := consistent
      obtain ⟨i, sound'⟩ := sound w (by simp)
      refine ⟨safe.tagged, ?_, safe.task, alone, served, ?_⟩
      · intro b l' i' tag loaded c v member
        refine safe.written served.1 sound' ?_ tag loaded member
        intro x waiting
        simp only [State.pending, reading, Phase.pending, alone, Option.elim_none,
          List.append_nil, List.mem_append, List.mem_cons] at waiting ⊢
        tauto
      · intro x member
        apply sound x
        simp only [List.mem_append, List.mem_cons] at member ⊢
        tauto
  | run read =>
      rw [read] at consistent
      obtain ⟨alone, served, _⟩ := consistent
      refine ⟨safe.tagged, safe.held_kept ?_, safe.task, served, ?_⟩
      · simp only [State.pending, read, Phase.pending]
      · intro task present
        rw [alone] at present
        cases present
  | kick read apart =>
      rw [read] at consistent
      obtain ⟨alone, served, _⟩ := consistent
      refine ⟨safe.tagged, safe.held_kept ?_, ?_, served, ?_⟩
      · simp only [State.pending, read, alone, Phase.pending, Option.elim_some, Option.elim_none,
          Task.pending]
      · intro l' pending task
        cases task
      · intro task present
        rw [← Option.some.inj present]
        exact apart
  | @start l hint records pending queued load =>
      have quiet : s.pending = [] := by
        cases phase : s.phase with
        | reading =>
            rw [phase] at consistent
            rw [consistent.1] at queued
            cases queued
        | _ => simp [State.pending, phase, Phase.pending, queued, Task.pending]
      refine ⟨safe.retagged load, ?_, ?_, ?_⟩
      · intro b l' i tag loaded c v member
        rcases safe.recorded load quiet tag loaded member with value | later
        · exact Or.inl value
        · exact Or.inr (List.mem_append_right _ later)
      · intro l' pending' task
        cases task
        exact ⟨load.tagged, fun w => load.sound⟩
      · exact safe.helped rfl queued rfl rfl fun apart served => served.kept load apart
  | @fetch l first rest w reading =>
      obtain ⟨tag, sound⟩ := safe.task reading
      obtain ⟨i, sound'⟩ := sound w (by simp)
      refine ⟨safe.tagged, ?_, ?_, ?_⟩
      · intro b l' i' tag' loaded c v member
        refine safe.written tag sound' ?_ tag' loaded member
        intro x waiting
        simp only [State.pending, reading, Option.elim_some, Task.pending, List.mem_append,
          List.mem_cons] at waiting ⊢
        tauto
      · intro l' pending' task
        cases task
        refine ⟨tag, ?_⟩
        intro x member
        apply sound x
        simp only [List.mem_append, List.mem_cons] at member ⊢
        tauto
      · exact safe.helped rfl reading rfl rfl fun _ served => served
  | finish running =>
      refine ⟨safe.tagged, safe.held_kept ?_, safe.task, trivial⟩
      simp only [State.pending, running, Phase.pending]

/-! ## What the user may rely on -/

omit [DecidableEq Cell] in
theorem Safe.resident {s : State Layer Buf Item Cell Value} (safe : Safe layout s) {l : Layer}
    {need : Item → Prop} (running : s.phase = .running l need) {i : Item} (wanted : need i)
    {c : Cell} {v : Value} (member : (c, v) ∈ layout.writes l i) : s.mem c = v := by
  have consistent := safe.phase
  rw [running] at consistent
  obtain ⟨served, apart⟩ := consistent
  rcases safe.held served.1 (served.2 i wanted) member with value | later
  · exact value
  · simp only [State.pending, running, Phase.pending, List.nil_append] at later
    cases present : s.task with
    | none => simp [present] at later
    | some task =>
        rw [present, Option.elim_some] at later
        cases task with
        | queued => cases later
        | reading l' pending =>
            obtain ⟨j, sound⟩ := (safe.task present).2 _ later
            have place := (layout.inside sound).symm.trans (layout.inside member)
            exact absurd place (apart _ present)

theorem Step.untouched {s s' : State Layer Buf Item Cell Value} (step : Step layout s s')
    (safe : Safe layout s) {l : Layer} {need : Item → Prop} (running : s.phase = .running l need)
    {c : Cell} (owned : layout.owner c = layout.buf l) : s'.mem c = s.mem c := by
  have consistent := safe.phase
  rw [running] at consistent
  cases step with
  | read reading =>
      rw [running] at reading
      cases reading
  | @fetch l' first rest w reading =>
      obtain ⟨i, sound⟩ := (safe.task reading).2 w (by simp)
      have elsewhere : c ≠ w.1 := by
        intro same
        have place := (layout.inside (v := w.2) sound).symm.trans (same ▸ owned)
        exact consistent.2 _ reading place
      exact Function.update_of_ne elsewhere _ _
  | _ => rfl

end MoeStream.Foundation.DoubleBuffer
