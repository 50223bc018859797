import MoeStream.Arena.Dense
import MoeStream.Foundation.DoubleBuffer

/-!
# What the FFN reads from the dense arena

The dense path is an instance of loading into shared buffers with one item per
layer, all its claimed weights.  The record of a load is made after its reads
rather than before them, and a load that hits or has nothing to load is a step
that changes nothing.
-/

set_option autoImplicit false

namespace MoeStream.Dense

open Foundation Foundation.Writes

variable {d : Arena} {preads : (DenseInfo → Nat → Nat → Int) → Prop}

/-! ## The arena tensors of a layer -/

theorem viewFrom_bounds {w : List DenseInfo} {off o : Nat} {v : DenseInfo}
    (member : v ∈ viewFrom w off) (placed : v.arenaOff = some o) :
    off ≤ o ∧ o + v.bytes ≤ off + weightBytes w := by
  induction w generalizing off with
  | nil => cases member
  | cons m rest ih =>
      simp only [viewFrom] at member
      simp only [weightBytes, List.map_cons, List.sum_cons] at ih ⊢
      split at member
      · rename_i valid
        rw [if_pos valid]
        rcases List.mem_cons.mp member with rfl | member
        · cases placed
          exact ⟨le_refl _, by simp only; omega⟩
        · have later := ih member
          omega
      · rename_i invalid
        rw [if_neg invalid]
        rcases List.mem_cons.mp member with rfl | member
        · cases placed
        · have later := ih member
          omega

def Before (v v' : DenseInfo) : Prop :=
  ∀ o o', v.arenaOff = some o → v'.arenaOff = some o' → o + v.bytes ≤ o'

theorem viewFrom_before (w : List DenseInfo) (off : Nat) : (viewFrom w off).Pairwise Before := by
  induction w generalizing off with
  | nil => exact .nil
  | cons m rest ih =>
      simp only [viewFrom]
      split
      · apply List.Pairwise.cons
        · intro v' member o o' placed placed'
          cases placed
          exact (viewFrom_bounds member placed').1
        · exact ih _
      · apply List.Pairwise.cons
        · intro v' member o o' placed
          cases placed
        · exact ih _

theorem viewFrom_zip {w : List DenseInfo} {off : Nat} {m v : DenseInfo}
    (member : (m, v) ∈ w.zip (viewFrom w off)) :
    v ∈ viewFrom w off ∧ m ∈ w ∧
      ∀ o, v.arenaOff = some o → m.valid = true ∧ v = { m with arenaOff := some o } := by
  refine ⟨(List.of_mem_zip member).2, (List.of_mem_zip member).1, ?_⟩
  induction w generalizing off with
  | nil => cases member
  | cons first rest ih =>
      simp only [viewFrom] at member
      split at member
      · rename_i valid
        rcases List.mem_cons.mp member with same | member
        · cases same
          intro o placed
          cases placed
          exact ⟨valid, rfl⟩
        · exact ih member
      · rcases List.mem_cons.mp member with same | member
        · cases same
          intro o placed
          cases placed
        · exact ih member

theorem viewFrom_source {w : List DenseInfo} {off : Nat} {v : DenseInfo}
    (member : v ∈ viewFrom w off) : ∃ m, (m, v) ∈ w.zip (viewFrom w off) := by
  induction w generalizing off with
  | nil => cases member
  | cons first rest ih =>
      simp only [viewFrom] at member ⊢
      split at member
      · rename_i valid
        rw [if_pos valid]
        rcases List.mem_cons.mp member with rfl | member
        · exact ⟨first, List.mem_cons_self⟩
        · obtain ⟨m, listed⟩ := ih member
          exact ⟨m, List.mem_cons_of_mem _ listed⟩
      · rename_i invalid
        rw [if_neg invalid]
        rcases List.mem_cons.mp member with rfl | member
        · exact ⟨first, List.mem_cons_self⟩
        · obtain ⟨m, listed⟩ := ih member
          exact ⟨m, List.mem_cons_of_mem _ listed⟩

theorem view_some {il : Nat} {view : List DenseInfo} (found : d.view il = some view) :
    ∃ w, d.weights il = some w ∧ view = viewFrom w 0 := by
  obtain ⟨w, registered, shown⟩ := Option.bind_eq_some_iff.mp found
  split at shown
  · cases shown
  · exact ⟨w, registered, (Option.some.inj shown).symm⟩

/-! ## What `dense_load_layer` does -/

section Load

variable {il : Nat} {pread : DenseInfo → Nat → Nat → Int} {resident : Nat → Option Nat}

theorem denseLoadLayer_eq_some {pending : List (ArenaCell × Byte)} :
    d.denseLoadLayer il pread resident = some pending ↔
      resident (il % d.nbuf) ≠ some il ∧ ∃ w, d.weights il = some w ∧
        d.view il = some (viewFrom w 0) ∧
        ((w.zip (viewFrom w 0)).flatMap fun (m, v) => d.weightRead il pread m v) = pending := by
  rw [Arena.denseLoadLayer]
  by_cases hit : resident (il % d.nbuf) = some il
  · simp [hit]
  · rw [if_neg hit]
    cases found : d.view il with
    | none => cases d.weights il <;> simp
    | some view =>
        obtain ⟨w, registered, rfl⟩ := view_some found
        simp [registered, hit]

theorem denseLoadLayer_eq_none :
    d.denseLoadLayer il pread resident = none ↔
      resident (il % d.nbuf) = some il ∨ d.view il = none := by
  rw [Arena.denseLoadLayer]
  by_cases hit : resident (il % d.nbuf) = some il
  · simp [hit]
  · rw [if_neg hit]
    cases found : d.view il with
    | none => cases d.weights il <;> simp
    | some view =>
        obtain ⟨w, registered, rfl⟩ := view_some found
        simp [registered, hit]

end Load

/-! ## The item of a layer -/

def Arena.layerWrites (d : Arena) (il : Nat) : List (ArenaCell × Byte) :=
  (d.view il).elim [] fun view => view.flatMap fun v => v.arenaOff.elim [] fun off =>
    region (fun x => (il % d.nbuf, off + x)) v.bytes (weightByte d.shards v)

theorem mem_layerWrites {il : Nat} {cell : ArenaCell} {b : Byte} :
    (cell, b) ∈ d.layerWrites il ↔
      ∃ view v off x, d.view il = some view ∧ v ∈ view ∧ v.arenaOff = some off ∧ x < v.bytes ∧
        cell = (il % d.nbuf, off + x) ∧ b = weightByte d.shards v x := by
  simp only [Arena.layerWrites]
  cases found : d.view il with
  | none => simp
  | some view =>
      simp only [Option.elim_some, List.mem_flatMap]
      constructor
      · rintro ⟨v, member, written⟩
        cases placed : v.arenaOff with
        | none =>
            rw [placed] at written
            cases written
        | some off =>
            rw [placed] at written
            obtain ⟨x, inside, place, value⟩ := mem_region.mp written
            exact ⟨view, v, off, x, rfl, member, placed, inside, place, value⟩
      · rintro ⟨view', v, off, x, same, member, placed, inside, place, value⟩
        cases same
        refine ⟨v, member, ?_⟩
        rw [placed]
        exact mem_region.mpr ⟨x, inside, place, value⟩

/-- Where two arena tensors meet they hold the same byte. -/
def Agree (shards : Shards) (v v' : DenseInfo) : Prop :=
  ∀ o o' x x', v.arenaOff = some o → v'.arenaOff = some o' → x < v.bytes → x' < v'.bytes →
    o + x = o' + x' → weightByte shards v x = weightByte shards v' x'

theorem Before.agree {v v' : DenseInfo} (before : Before v v') :
    Agree d.shards v v' ∧ Agree d.shards v' v := by
  constructor
  · intro o o' x x' placed placed' inside _ same
    have apart := before o o' placed placed'
    omega
  · intro o' o x' x placed' placed _ inside same
    have apart := before o o' placed placed'
    omega

/-- Arena tensors of one layer meet only where a tensor meets itself. -/
theorem view_agree {il : Nat} {view : List DenseInfo} (found : d.view il = some view)
    {v v' : DenseInfo} (member : v ∈ view) (member' : v' ∈ view) : Agree d.shards v v' := by
  obtain ⟨w, _, rfl⟩ := view_some found
  have order := viewFrom_before w 0
  apply List.Pairwise.forall_of_forall_of_flip ?_ (order.imp fun before => before.agree.1)
    (order.imp fun before => before.agree.2) member member'
  intro v _ o o' x x' placed placed' _ _ same
  cases placed.symm.trans placed'
  rw [Nat.add_left_cancel same]

def Arena.layout (d : Arena) : DoubleBuffer.Layout Nat Nat Unit ArenaCell Byte where
  buf := fun il => il % d.nbuf
  owner := Prod.fst
  writes := fun il _ => d.layerWrites il
  inside := by
    intro il _ cell b member
    obtain ⟨_, _, _, _, _, _, _, _, cell, _⟩ := mem_layerWrites.mp member
    rw [cell]
  agree := by
    intro il _ _ cell b b' member member'
    obtain ⟨view, v, off, x, found, listed, placed, inside, place, value⟩ :=
      mem_layerWrites.mp member
    obtain ⟨view', v', off', x', found', listed', placed', inside', place', value'⟩ :=
      mem_layerWrites.mp member'
    cases Option.some.inj (found.symm.trans found')
    rw [value, value']
    exact view_agree found listed listed' off off' x x' placed placed' inside inside'
      (Prod.mk.inj (place.symm.trans place')).2

def Arena.Complete (d : Arena) (pread : DenseInfo → Nat → Nat → Int) : Prop :=
  ∀ il w, d.weights il = some w → ∀ m ∈ w,
    d.shards.opened m.fileIdx = true ∧ RangeWhole (pread m) d.threads m.bytes

theorem mem_weightRead {il : Nat} {pread : DenseInfo → Nat → Nat → Int} {m v : DenseInfo}
    (opened : d.shards.opened m.fileIdx = true) (whole : RangeWhole (pread m) d.threads m.bytes)
    (source : ∀ o, v.arenaOff = some o → m.valid = true ∧ v = { m with arenaOff := some o })
    {cell : ArenaCell} {b : Byte} :
    (cell, b) ∈ d.weightRead il pread m v ↔
      ∃ off x, v.arenaOff = some off ∧ x < v.bytes ∧ cell = (il % d.nbuf, off + x) ∧
        b = weightByte d.shards v x := by
  cases placed : v.arenaOff with
  | none =>
      simp only [Arena.weightRead]
      rw [placed]
      simp
  | some off =>
      obtain ⟨valid, same⟩ := source off placed
      simp only [Arena.weightRead, valid, placed, opened, if_true]
      rw [mem_denseReadRange whole, same]
      constructor
      · rintro ⟨x, byte⟩
        exact ⟨off, x, rfl, byte⟩
      · rintro ⟨off', x, same', byte⟩
        cases same'
        exact ⟨x, byte⟩

/-- What `dense_load_layer` reads is all the layer's arena tensors hold. -/
theorem denseLoadLayer_reads {il : Nat} {pread : DenseInfo → Nat → Nat → Int}
    (complete : d.Complete pread) {resident : Nat → Option Nat}
    {pending : List (ArenaCell × Byte)}
    (loads : d.denseLoadLayer il pread resident = some pending) (w : ArenaCell × Byte) :
    w ∈ pending ↔ w ∈ d.layerWrites il := by
  obtain ⟨cell, b⟩ := w
  obtain ⟨-, w, registered, found, rfl⟩ := denseLoadLayer_eq_some.mp loads
  rw [mem_layerWrites, List.mem_flatMap]
  constructor
  · rintro ⟨⟨m, v⟩, zipped, read⟩
    obtain ⟨listed, claimed, source⟩ := viewFrom_zip zipped
    obtain ⟨opened, whole⟩ := complete il w registered m claimed
    obtain ⟨off, x, byte⟩ := (mem_weightRead opened whole source).mp read
    exact ⟨_, v, off, x, found, listed, byte⟩
  · rintro ⟨view', v, off, x, same, listed, byte⟩
    cases Option.some.inj (found.symm.trans same)
    obtain ⟨m, zipped⟩ := viewFrom_source listed
    obtain ⟨_, claimed, source⟩ := viewFrom_zip zipped
    obtain ⟨opened, whole⟩ := complete il w registered m claimed
    exact ⟨(m, v), zipped, (mem_weightRead opened whole source).mpr ⟨off, x, byte⟩⟩

/-! ## The steps of the source -/

def Phase.reads : Phase → Option Nat
  | .reading il _ => some il
  | _ => none

def Thread.reads : Thread → Option Nat
  | .reading il _ => some il
  | _ => none

def State.inProgress (s : State) : Option Nat := s.phase.reads.or (s.thread.bind Thread.reads)

def State.tags (d : Arena) (s : State) : Nat → Option Nat :=
  s.inProgress.elim s.resident fun il => Function.update s.resident (il % d.nbuf) (some il)

def Thread.task (d : Arena) : Thread → Option (DoubleBuffer.Task Nat Unit ArenaCell Byte)
  | .kicked il => if (d.view il).isSome then some (.queued il fun _ => True) else none
  | .reading il pending => some (.reading il pending)
  | .done il => if (d.view il).isSome then some (.reading il []) else none

def Phase.user : Phase → DoubleBuffer.Phase Nat Unit ArenaCell Byte
  | .idle => .idle
  | .waiting il => .waiting il fun _ => True
  | .reading il pending => .reading il (fun _ => True) pending
  | .loaded il => .reading il (fun _ => True) []
  | .computing il => .running il fun _ => True

def State.protocol (d : Arena) (s : State) : DoubleBuffer.State Nat Nat Unit ArenaCell Byte :=
  ⟨s.mem, ⟨s.tags d, fun _ _ => True⟩, s.thread.bind (Thread.task d), s.phase.user⟩

def Phase.layer : Phase → Option Nat
  | .idle => none
  | .waiting il => some il
  | .reading il _ => some il
  | .loaded il => some il
  | .computing il => some il

/-- The op has joined the thread and not yet started the next one. -/
def Phase.joined : Phase → Bool
  | .reading _ _ => true
  | .loaded _ => true
  | _ => false

/-- What holds besides the protocol: layers that are read have arena tensors,
and no thread is left while the op reads. -/
structure Formed (d : Arena) (s : State) : Prop where
  user : ∀ {il}, s.phase.layer = some il → (d.view il).isSome
  helper : ∀ {il pending}, s.thread = some (.reading il pending) → (d.view il).isSome
  waited : s.phase.joined = true → s.thread = none

theorem denseLoadLayer_view {il : Nat} {pread : DenseInfo → Nat → Nat → Int}
    {resident : Nat → Option Nat} {pending : List (ArenaCell × Byte)}
    (loads : d.denseLoadLayer il pread resident = some pending) : (d.view il).isSome := by
  obtain ⟨-, w, -, found, -⟩ := denseLoadLayer_eq_some.mp loads
  rw [found]
  rfl

theorem start_formed (mem : ArenaCell → Byte) : Formed d (State.start mem) where
  user := by
    intro il at_work
    cases at_work
  helper := by
    intro il pending thread
    cases thread
  waited := by
    intro joined
    cases joined

theorem Step.formed {s s' : State} (step : Step d preads s s') (formed : Formed d s) :
    Formed d s' := by
  have keep : ∀ {phase phase' : Phase}, s.phase = phase → phase.layer = phase'.layer →
      ∀ {il}, phase'.layer = some il → (d.view il).isSome := by
    intro phase phase' current same
    rw [← same, ← current]
    exact formed.user
  cases step with
  | @call il idle inserted =>
      refine ⟨?_, formed.helper, ?_⟩
      · intro il' at_work
        cases at_work
        exact inserted
      · intro joined
        cases joined
  | @load il pread waiting wait io =>
      refine ⟨?_, ?_, fun _ => rfl⟩
      · apply keep waiting
        cases d.denseLoadLayer il pread s.resident <;> rfl
      · intro il' pending thread
        cases thread
  | @read il first rest w reading =>
      have alone := formed.waited (by rw [reading]; rfl)
      exact ⟨keep reading rfl, formed.helper, fun _ => alone⟩
  | @record il read =>
      have alone := formed.waited (by rw [read]; rfl)
      exact ⟨keep read rfl, formed.helper, fun _ => alone⟩
  | @launch il loaded =>
      refine ⟨keep loaded rfl, ?_, ?_⟩
      · intro il' pending thread
        simp only [Arena.dnKick] at thread
        split at thread
        · cases thread
        · split at thread <;> cases thread
      · intro joined
        cases joined
  | @start il pread kicked io =>
      refine ⟨formed.user, ?_, ?_⟩
      · intro il' pending thread
        cases loads : d.denseLoadLayer il pread s.resident with
        | none =>
            rw [loads] at thread
            cases thread
        | some pending' =>
            rw [loads] at thread
            cases thread
            exact denseLoadLayer_view loads
      · intro joined
        rw [formed.waited joined] at kicked
        cases kicked
  | @fetch il first rest w reading =>
      refine ⟨formed.user, ?_, ?_⟩
      · intro il' pending thread
        cases thread
        exact formed.helper reading
      · intro joined
        rw [formed.waited joined] at reading
        cases reading
  | @note il read =>
      refine ⟨formed.user, ?_, ?_⟩
      · intro il' pending thread
        cases thread
      · intro joined
        rw [formed.waited joined] at read
        cases read
  | @finish il computing =>
      refine ⟨?_, formed.helper, ?_⟩
      · intro il' at_work
        cases at_work
      · intro joined
        cases joined

theorem denseLoadLayer_hit {il : Nat} {pread : DenseInfo → Nat → Nat → Int}
    {resident : Nat → Option Nat} (returns : d.denseLoadLayer il pread resident = none)
    (inserted : (d.view il).isSome) : resident (il % d.nbuf) = some il := by
  rcases denseLoadLayer_eq_none.mp returns with hit | missing
  · exact hit
  · rw [missing] at inserted
    cases inserted

/-- `dense_load_layer` gives the buffer to the layer, whether it reads or hits. -/
theorem denseLoadLayer_load (complete : ∀ pread, preads pread → d.Complete pread) {il : Nat}
    {pread : DenseInfo → Nat → Nat → Int} (io : preads pread) (inserted : (d.view il).isSome)
    (resident : Nat → Option Nat) :
    DoubleBuffer.Load d.layout il (fun _ => True) ⟨resident, fun _ _ => True⟩
      ⟨Function.update resident (il % d.nbuf) (some il), fun _ _ => True⟩
      ((d.denseLoadLayer il pread resident).getD []) := by
  refine ⟨Function.update_self _ _ _, ?_, ?_, ?_, fun _ => trivial⟩
  · intro b other
    exact ⟨Function.update_of_ne other _ _, rfl⟩
  · intro w member
    cases loads : d.denseLoadLayer il pread resident with
    | none =>
        rw [loads] at member
        cases member
    | some pending =>
        rw [loads] at member
        exact ⟨(), (denseLoadLayer_reads (complete pread io) loads w).mp member⟩
  · intro _ _
    cases loads : d.denseLoadLayer il pread resident with
    | none => exact Or.inl ⟨denseLoadLayer_hit loads inserted, trivial⟩
    | some pending =>
        right
        intro w member
        exact (denseLoadLayer_reads (complete pread io) loads w).mpr member

theorem tags_quiet {s : State} (quiet : s.inProgress = none) : s.tags d = s.resident := by
  simp only [State.tags]
  rw [quiet]
  rfl

theorem tags_reading {s : State} {il : Nat} (reading : s.inProgress = some il) :
    s.tags d = Function.update s.resident (il % d.nbuf) (some il) := by
  simp only [State.tags]
  rw [reading]
  rfl

/-- A load under way or just made: in either case the buffer is the layer's. -/
theorem tags_loads {s : State} {il : Nat} (pread : DenseInfo → Nat → Nat → Int)
    (inserted : (d.view il).isSome)
    (progress : s.inProgress = (d.denseLoadLayer il pread s.resident).map fun _ => il) :
    s.tags d = Function.update s.resident (il % d.nbuf) (some il) := by
  cases loads : d.denseLoadLayer il pread s.resident with
  | none =>
      rw [loads] at progress
      rw [tags_quiet progress, ← denseLoadLayer_hit loads inserted, Function.update_eq_self]
  | some pending =>
      rw [loads] at progress
      exact tags_reading progress

theorem protocol_eq {s : State} {resident : Nat → Option Nat} (tags : s.tags d = resident) :
    s.protocol d = ⟨s.mem, ⟨resident, fun _ _ => True⟩, s.thread.bind (Thread.task d),
      s.phase.user⟩ := by
  rw [← tags]
  rfl

theorem joined_finished {thread : Option Thread} (joined : Joined thread) :
    thread.bind Thread.reads = none ∧ DoubleBuffer.Finished (thread.bind (Thread.task d)) := by
  cases thread with
  | none => exact ⟨rfl, trivial⟩
  | some thread =>
      cases thread with
      | kicked => exact absurd joined id
      | reading => exact absurd joined id
      | done il =>
          refine ⟨rfl, ?_⟩
          simp only [Option.bind_some, Thread.task]
          split
          · rfl
          · trivial

theorem dnKick_cases (d : Arena) (il : Nat) :
    d.dnKick il = none ∨ (d.dnKick il = some (.kicked il) ∧ 2 ≤ d.nbuf) := by
  simp only [Arena.dnKick]
  split
  · exact Or.inl rfl
  · rename_i two
    split
    · exact Or.inl rfl
    · exact Or.inr ⟨rfl, by omega⟩

theorem Formed.still {s : State} (formed : Formed d s) {thread : Thread}
    (present : s.thread = some thread) : s.phase.reads = none := by
  cases phase : s.phase with
  | reading =>
      rw [formed.waited (by rw [phase]; rfl)] at present
      cases present
  | _ => rfl

theorem load_protocol (complete : ∀ pread, preads pread → d.Complete pread) {s : State}
    (formed : Formed d s) {il : Nat} {pread : DenseInfo → Nat → Nat → Int}
    (waiting : s.phase = .waiting il) (wait : Joined s.thread) (io : preads pread) :
    DoubleBuffer.Step d.layout (s.protocol d) (State.protocol d
      { s with
        thread := none
        phase := (d.denseLoadLayer il pread s.resident).elim (.loaded il) (.reading il) }) := by
  obtain ⟨still, joined⟩ := joined_finished (d := d) wait
  have inserted : (d.view il).isSome := formed.user (by rw [waiting]; rfl)
  have before : s.tags d = s.resident :=
    tags_quiet (by simp only [State.inProgress, waiting, still, Phase.reads, Option.or_self])
  have after : State.protocol d { s with
      thread := none
      phase := (d.denseLoadLayer il pread s.resident).elim (.loaded il) (.reading il) } =
      ⟨s.mem, ⟨Function.update s.resident (il % d.nbuf) (some il), fun _ _ => True⟩, none,
        .reading il (fun _ => True) ((d.denseLoadLayer il pread s.resident).getD [])⟩ := by
    rw [protocol_eq (tags_loads pread inserted ?_)]
    · cases d.denseLoadLayer il pread s.resident <;> rfl
    · cases d.denseLoadLayer il pread s.resident <;> rfl
  rw [after]
  have phase : (s.protocol d).phase = .waiting il fun _ => True := by
    simp only [State.protocol, waiting, Phase.user]
  apply DoubleBuffer.Step.load phase joined
  rw [protocol_eq before]
  exact denseLoadLayer_load complete io inserted s.resident

theorem launch_protocol {s : State} (formed : Formed d s) {il : Nat}
    (loaded : s.phase = .loaded il) :
    DoubleBuffer.Step d.layout (s.protocol d)
      (State.protocol d { s with thread := d.dnKick (il + 1), phase := .computing il }) := by
  have alone := formed.waited (by rw [loaded]; rfl)
  have before : s.inProgress = none := by
    simp only [State.inProgress, loaded, alone, Phase.reads, Option.bind_none, Option.or_self]
  have after : State.inProgress { s with
      thread := d.dnKick (il + 1), phase := .computing il } = none := by
    rcases dnKick_cases d (il + 1) with none | ⟨kicked, _⟩
    · simp only [State.inProgress, none, Phase.reads, Option.bind_none, Option.or_self]
    · simp only [State.inProgress, kicked, Phase.reads, Option.bind_some, Thread.reads,
        Option.or_self]
  have read : (s.protocol d).phase = .reading il (fun _ => True) [] := by
    simp only [State.protocol, loaded, Phase.user]
  have run : DoubleBuffer.Step d.layout (s.protocol d) _ := .run read
  rw [protocol_eq (tags_quiet before)] at run read ⊢
  rw [protocol_eq (tags_quiet after)]
  rcases dnKick_cases d (il + 1) with none | ⟨kicked, two⟩
  · simp only [none, alone] at run ⊢
    exact run
  · simp only [kicked, Option.bind_some, Thread.task]
    split
    · exact .kick read (next_apart two il)
    · simp only [alone] at run ⊢
      exact run

theorem start_protocol (complete : ∀ pread, preads pread → d.Complete pread) {s : State}
    (formed : Formed d s) {il : Nat} {pread : DenseInfo → Nat → Nat → Int}
    (kicked : s.thread = some (.kicked il)) (io : preads pread) :
    DoubleBuffer.Step d.layout (s.protocol d) (State.protocol d
        { s with
          thread := some ((d.denseLoadLayer il pread s.resident).elim (.done il) (.reading il)) }) ∨
      State.protocol d
        { s with
          thread := some ((d.denseLoadLayer il pread s.resident).elim (.done il) (.reading il)) } =
        s.protocol d := by
  have still := formed.still kicked
  have before : s.tags d = s.resident := tags_quiet (by
    simp only [State.inProgress, still, kicked, Option.bind_some, Thread.reads, Option.or_self])
  cases inserted : (d.view il).isSome with
  | false =>
      right
      have missing := Option.isNone_iff_eq_none.mp (Option.isSome_eq_false_iff.mp inserted)
      have none : d.denseLoadLayer il pread s.resident = none :=
        denseLoadLayer_eq_none.mpr (Or.inr missing)
      rw [protocol_eq before, none, protocol_eq (tags_quiet ?_)]
      · simp only [kicked, Option.bind_some, Thread.task, inserted, Option.elim_none]
        rfl
      · simp only [State.inProgress, still, Option.bind_some, Thread.reads, Option.elim_none,
          Option.or_self]
  | true =>
      left
      have after : State.protocol d { s with
          thread := some ((d.denseLoadLayer il pread s.resident).elim (.done il)
            (.reading il)) } =
          ⟨s.mem, ⟨Function.update s.resident (il % d.nbuf) (some il), fun _ _ => True⟩,
            some (.reading il ((d.denseLoadLayer il pread s.resident).getD [])),
            s.phase.user⟩ := by
        rw [protocol_eq (tags_loads pread inserted ?_)]
        · cases loads : d.denseLoadLayer il pread s.resident with
          | none => simp only [Option.elim_none, Option.bind_some, Thread.task, inserted,
              if_true, Option.getD_none]
          | some pending => rfl
        · simp only [State.inProgress, still, Option.bind_some, Option.none_or]
          cases d.denseLoadLayer il pread s.resident <;> rfl
      rw [after]
      have queued : (s.protocol d).task = some (.queued il fun _ => True) := by
        simp only [State.protocol, kicked, Option.bind_some, Thread.task, inserted, if_true]
      apply DoubleBuffer.Step.start queued
      rw [protocol_eq before]
      exact denseLoadLayer_load complete io inserted s.resident

/-- Every step of the source is a step of the protocol or changes nothing. -/
theorem Step.protocol (complete : ∀ pread, preads pread → d.Complete pread) {s s' : State}
    (step : Step d preads s s') (formed : Formed d s) :
    DoubleBuffer.Step d.layout (s.protocol d) (s'.protocol d) ∨ s'.protocol d = s.protocol d := by
  cases step with
  | @call il idle inserted =>
      left
      have tags : State.tags d { s with phase := .waiting il } = s.tags d := by
        simp only [State.tags, State.inProgress, idle, Phase.reads]
      rw [protocol_eq tags]
      exact .call (s := s.protocol d) (by simp only [State.protocol, idle, Phase.user])
  | load waiting wait io => exact Or.inl (load_protocol complete formed waiting wait io)
  | @read il first rest w reading =>
      left
      have tags : State.tags d { s with
          mem := Function.update s.mem w.1 w.2, phase := .reading il (first ++ rest) } =
          s.tags d := by
        simp only [State.tags, State.inProgress, reading, Phase.reads]
      rw [protocol_eq tags]
      exact .read (s := s.protocol d) (by simp only [State.protocol, reading, Phase.user])
  | @record il read =>
      right
      have alone := formed.waited (by rw [read]; rfl)
      have before : s.inProgress = some il := by
        simp only [State.inProgress, read, Phase.reads, Option.some_or]
      rw [protocol_eq (tags_reading before), protocol_eq (tags_quiet ?_)]
      · simp only [read, Phase.user]
      · simp only [State.inProgress, alone, Phase.reads, Option.bind_none, Option.or_self]
  | launch loaded => exact Or.inl (launch_protocol formed loaded)
  | start kicked io => exact start_protocol complete formed kicked io
  | @fetch il first rest w reading =>
      left
      have tags : State.tags d { s with
          mem := Function.update s.mem w.1 w.2
          thread := some (.reading il (first ++ rest)) } = s.tags d := by
        simp only [State.tags, State.inProgress, reading, Option.bind_some, Thread.reads]
      rw [protocol_eq tags]
      have task : (s.protocol d).task = some (.reading il (first ++ w :: rest)) := by
        simp only [State.protocol, reading, Option.bind_some, Thread.task]
      exact .fetch task
  | @note il read =>
      right
      have still := formed.still read
      have before : s.inProgress = some il := by
        simp only [State.inProgress, still, read, Option.bind_some, Thread.reads, Option.none_or]
      rw [protocol_eq (tags_reading before), protocol_eq (tags_quiet ?_)]
      · simp only [read, Option.bind_some, Thread.task, formed.helper read, if_true]
      · simp only [State.inProgress, still, Option.bind_some, Thread.reads, Option.or_self]
  | @finish il computing =>
      left
      have tags : State.tags d { s with phase := .idle } = s.tags d := by
        simp only [State.tags, State.inProgress, computing, Phase.reads]
      rw [protocol_eq tags]
      have running : (s.protocol d).phase = .running il fun _ => True := by
        simp only [State.protocol, computing, Phase.user]
      exact .finish running

theorem reachable_safe (complete : ∀ pread, preads pread → d.Complete pread) {s : State}
    (reachable : d.Reachable preads s) :
    Formed d s ∧ DoubleBuffer.Safe d.layout (s.protocol d) := by
  obtain ⟨mem, run⟩ := reachable
  induction run with
  | refl => exact ⟨start_formed mem, DoubleBuffer.start_safe (fun _ => rfl) rfl rfl⟩
  | tail _ step ih =>
      obtain ⟨formed, safe⟩ := ih
      refine ⟨step.formed formed, ?_⟩
      rcases step.protocol complete formed with next | same
      · exact next.safe safe
      · rw [same]
        exact safe

/-! ## While the FFN runs -/

/-- An arena tensor is a claimed weight of its role and holds its bytes. -/
structure Covers (d : Arena) (s : State) (il : Nat) (role : Role) (v : DenseInfo) : Prop where
  claimed : ∃ w m, d.weights il = some w ∧ m ∈ w ∧ m.role = some role ∧
    v = { m with arenaOff := v.arenaOff }
  placed : ∃ off, v.arenaOff = some off ∧ off + v.bytes ≤ d.bytesPer ∧
    ∀ x, x < v.bytes → s.mem (il % d.nbuf, off + x) = weightByte d.shards v x

theorem denseFfn_view {il : Nat} {role : Role} {v : DenseInfo}
    (found : d.denseFfn il role = some v) :
    ∃ view, d.view il = some view ∧ v ∈ view ∧ v.valid = true ∧ v.role = some role := by
  obtain ⟨view, shown, chosen⟩ := Option.bind_eq_some_iff.mp found
  have test := List.find?_some chosen
  simp only [Bool.and_eq_true, beq_iff_eq] at test
  exact ⟨view, shown, List.mem_of_find?_eq_some chosen, test⟩

theorem viewFrom_placed {w : List DenseInfo} {off : Nat} {v : DenseInfo}
    (member : v ∈ viewFrom w off) (valid : v.valid = true) : ∃ o, v.arenaOff = some o := by
  induction w generalizing off with
  | nil => cases member
  | cons m rest ih =>
      simp only [viewFrom] at member
      split at member
      · rcases List.mem_cons.mp member with rfl | member
        · exact ⟨off, rfl⟩
        · exact ih member
      · rcases List.mem_cons.mp member with rfl | member
        · cases valid
        · exact ih member

theorem weightBytes_le {il : Nat} {w : List DenseInfo} (registered : d.weights il = some w) :
    weightBytes w ≤ d.bytesPer :=
  (le_layMax (d.last registered) (by rw [registered]; rfl)).trans (le_pageUp _)

/-- Whenever the FFN of a streamed layer runs, each of its arena tensors holds
the bytes of its weight, and no step of any party writes the layer's buffer
until the FFN is done. -/
theorem dense_serves (complete : ∀ pread, preads pread → d.Complete pread) {s : State}
    (reachable : d.Reachable preads s) {il : Nat} (computing : s.phase = .computing il) :
    (∀ role v, d.denseFfn il role = some v → Covers d s il role v) ∧
    (∀ view, d.view il = some view → view.Pairwise Before) ∧
    ∀ s', Step d preads s s' →
      (s'.phase = .computing il ∨ s'.phase = .idle) ∧
      ∀ off, s'.mem (il % d.nbuf, off) = s.mem (il % d.nbuf, off) := by
  obtain ⟨formed, safe⟩ := reachable_safe complete reachable
  have running : (s.protocol d).phase = .running il fun _ => True := by
    simp only [State.protocol, computing, Phase.user]
  refine ⟨?_, ?_, ?_⟩
  · intro role v found
    obtain ⟨view, shown, listed, valid, ofRole⟩ := denseFfn_view found
    obtain ⟨w, registered, rfl⟩ := view_some shown
    obtain ⟨off, placed⟩ := viewFrom_placed listed valid
    obtain ⟨m, zipped⟩ := viewFrom_source listed
    obtain ⟨_, claimed, source⟩ := viewFrom_zip zipped
    obtain ⟨_, same⟩ := source off placed
    refine ⟨⟨w, m, registered, claimed, ?_, ?_⟩, off, placed, ?_, ?_⟩
    · rw [same] at ofRole
      exact ofRole
    · rw [placed]
      exact same
    · have bounds := (viewFrom_bounds listed placed).2
      have fits := weightBytes_le registered
      omega
    · intro x inside
      exact safe.resident (i := ()) running trivial
        (mem_layerWrites.mpr ⟨_, v, off, x, shown, listed, placed, inside, rfl, rfl⟩)
  · intro view shown
    obtain ⟨w, _, rfl⟩ := view_some shown
    exact viewFrom_before w 0
  · intro s' step
    refine ⟨?_, ?_⟩
    · cases step with
      | start | fetch | note => exact Or.inl computing
      | finish => exact Or.inr rfl
      | call current | load current | read current | record current | launch current =>
          rw [computing] at current
          cases current
    · intro off
      rcases step.protocol complete formed with next | same
      · exact next.untouched safe running rfl
      · have mem := congrArg DoubleBuffer.State.mem same
        exact congrFun mem (il % d.nbuf, off)

/-! ## A run -/

theorem reads_end {il : Nat} (pending : List (ArenaCell × Byte)) {s : State}
    (reading : s.phase = .reading il pending) :
    ∃ s', Relation.ReflTransGen (Step d preads) s s' ∧ s'.phase = .loaded il := by
  induction pending generalizing s with
  | nil =>
      have record : Step d preads s { s with
          resident := Function.update s.resident (il % d.nbuf) (some il), phase := .loaded il } :=
        .record reading
      exact ⟨_, .single record, rfl⟩
  | cons w rest ih =>
      have first : Step d preads s { s with
          mem := Function.update s.mem w.1 w.2, phase := .reading il ([] ++ rest) } :=
        .read reading
      obtain ⟨s', run, loaded⟩ := ih (s := { s with
        mem := Function.update s.mem w.1 w.2, phase := .reading il ([] ++ rest) }) rfl
      exact ⟨s', .head first run, loaded⟩

theorem op_computes {s : State} {il : Nat} {pread : DenseInfo → Nat → Nat → Int}
    (idle : s.phase = .idle) (alone : s.thread = none) (inserted : (d.view il).isSome)
    (io : preads pread) :
    ∃ s', Relation.ReflTransGen (Step d preads) s s' ∧ s'.phase = .computing il := by
  have called : Step d preads s { s with phase := .waiting il } := .call idle inserted
  have load : Step d preads { s with phase := .waiting il } { s with
      thread := none
      phase := (d.denseLoadLayer il pread s.resident).elim (.loaded il) (.reading il) } :=
    .load (s := { s with phase := .waiting il }) rfl (by rw [alone]; trivial) io
  have ends : ∃ s', Relation.ReflTransGen (Step d preads) { s with
      thread := none
      phase := (d.denseLoadLayer il pread s.resident).elim (.loaded il) (.reading il) } s' ∧
      s'.phase = .loaded il := by
    cases loads : d.denseLoadLayer il pread s.resident with
    | none => exact ⟨_, .refl, rfl⟩
    | some pending => exact reads_end pending rfl
  obtain ⟨s', run, loaded⟩ := ends
  exact ⟨_, .head called (.head load (run.tail (.launch loaded))), rfl⟩

/-- Weight `place` of a layer, two bytes long. -/
def pairWeight (place : Nat) (role : Role) : DenseInfo :=
  { fileOffset := 2 * place, bytes := 2, role := some role, valid := true }

def pairArena : Arena where
  weights := fun il =>
    if il < 2 then some [pairWeight 0 .gate, pairWeight 1 .up, pairWeight 2 .down] else none
  bound := 2
  nLayer := 2
  first := 0
  nbuf := 2
  threads := 4
  shards := ⟨fun _ => true, fun _ i => i.toUInt8⟩
  last := by
    intro il w registered
    by_contra outside
    rw [if_neg outside] at registered
    cases registered
  allocated := Nat.two_pos

def fullReads : DenseInfo → Nat → Nat → Int := fun _ _ left => left

theorem dense_serves_pair :
    ∃ s, s.phase = .computing 1 ∧
      Covers pairArena s 1 .down { pairWeight 2 .down with arenaOff := some 4 } := by
  have complete : ∀ pread, pread = fullReads → pairArena.Complete pread := by
    rintro pread rfl il w registered m claimed
    refine ⟨rfl, ?_⟩
    intro beg len _
    exact readLoop_full len
  have runs : ∃ s, Relation.ReflTransGen (Step pairArena fun pread => pread = fullReads)
      (State.start fun _ => 255) s ∧ s.phase = .computing 1 := op_computes rfl rfl rfl rfl
  obtain ⟨s, run, computing⟩ := runs
  have reachable : pairArena.Reachable (fun pread => pread = fullReads) s := ⟨fun _ => 255, run⟩
  exact ⟨s, computing, (dense_serves complete reachable computing).1 .down _ rfl⟩

end MoeStream.Dense
