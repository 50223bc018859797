import Mathlib.Data.Prod.Lex
import MoeStream.Foundation.Refinement
import MoeStream.Inference.Serves

/-!
# The streamed model computes what the resident one does

Every step keeps the invariant and is a step of the resident model or none of
it, makes the machine smaller, and is possible until the batches are done.  So
every run, in whatever order the parties take their steps, ends with the result
of the resident model.
-/

set_option autoImplicit false

namespace MoeStream.Inference

open Relation
open Foundation Foundation.FixedWidth Foundation.Refinement

variable {B X Y : Type} [AddZeroClass Y] {net : Network B X Y} {sys : System} {reads : Reads}
  {m m' : Machine B X Y} {il : Nat} {L : LayerSlabs} {ids : Ids}

/-! ## The remap -/

theorem Fit.slot_narrow (fit : Fit net sys reads) {slot : Nat} (small : slot ≤ sys.rt.nSlots) :
    (i32 slot).toNat = slot := by
  have slots := fit.slots
  have narrow := fit.narrow
  have bound : slot < 2 ^ 31 := by
    simp only [Sizing.slots] at slots
    omega
  rw [i32_eq bound, Int.toNat_natCast]

/-- After a pass of the remap, each position leads to its expert or to zeros. -/
theorem Fit.remap (fit : Fit net sys reads) (current : Current net sys m il L ids)
    (steady : Steady sys.rt sys.sizing.nExpert m.slab)
    (path : sys.prefills il ids.ne1 = false) {pass : Nat} (inside : pass < sys.passes ids)
    {io : Io} (result : reads.slab io) :
    Steady sys.rt sys.sizing.nExpert
        (MoeStream.remap sys.rt io m.slab ⟨il, pass, sys.passes ids, ids⟩).state ∧
      ∀ look ∈ looksOf L ids.list.length,
        slabLook il L (MoeStream.remap sys.rt io m.slab ⟨il, pass, sys.passes ids, ids⟩).state
          (MoeStream.remap sys.rt io m.slab ⟨il, pass, sys.passes ids, ids⟩).out look =
        wantPass sys L ids pass look := by
  obtain ⟨-, member, rfl, found⟩ := current
  obtain ⟨atMost, advance⟩ := fit.slabReads io result
  have callFits := fit.call member path inside
  have share := fit.share member path
  have arrives : CallArrives sys.rt io m.slab
      ⟨il, pass, sys.passes (net.selected il m.x), net.selected il m.x⟩ :=
    ReadsInside.arrives fit.product steady.kept steady.recorded callFits atMost
      fun L found => advance il L (remapped_layer found)
  refine ⟨steady.remap fit.product fit.whole callFits atMost arrives, ?_⟩
  rintro ⟨n, role, i⟩ listed
  obtain ⟨bound, width⟩ := mem_looksOf.mp listed
  have position := List.getElem?_eq_getElem bound
  obtain ⟨low, high⟩ := (fit.router il m.x).inRange (List.getElem_mem bound)
  obtain ⟨slot, small, answered, holds⟩ := steady.answers fit.product fit.whole fit.unset callFits
    inside atMost arrives found share position low high
  have index : idAt (net.selected il m.x) n = (net.selected il m.x).list[n].toNat := by
    rw [idAt, List.getD_eq_getElem?_getD, position]
    rfl
  simp only [slabLook, wantPass]
  rw [List.getD_eq_getElem?_getD, answered, Option.getD_some, fit.slot_narrow small, index]
  simp only [Holds] at holds
  split at holds
  · rename_i own
    rw [if_pos own]
    exact holds role i width
  · rename_i foreign
    rw [if_neg foreign]
    exact holds role i width

/-! ## What a step keeps -/

theorem Fit.opened (fit : Fit net sys reads) : ∀ il L, sys.arena.layers il = some L → ∀ role,
    sys.arena.shards.opened (L.role role).fileIdx = true := by
  intro il L layer role
  obtain ⟨⟨pread, io⟩, -⟩ := fit.answers
  have registered := fit.same il L layer
  have experts := fit.product.same il L registered
  have positive := fit.known
  rw [fit.shards]
  exact (fit.arenaReads pread io il L registered ⟨role, 0, 0, none⟩ (by dsimp only; omega)).1

theorem Fit.inside (fit : Fit net sys reads) : sys.arena.Inside reads.arena := by
  intro pread io il L layer job expert
  rw [fit.shards]
  exact (fit.arenaReads pread io il L (fit.same il L layer)).whole expert

theorem Fit.sound (fit : Fit net sys reads) {arena : Prefill.State}
    (sound : Prefill.Sound sys.arena m.arena)
    (step : Prefill.Step sys.arena reads.arena m.arena arena) : Prefill.Sound sys.arena arena :=
  sound.step fit.opened fit.inside step

omit [AddZeroClass Y] in
theorem Current.of_next (current : Current net sys m il L ids) {il' : Nat} {todo : List Nat}
    (next : m.todo = il' :: todo) : il = il' := by
  obtain ⟨todo', same⟩ := current.next
  exact (List.cons.inj (same.symm.trans next)).1

omit [AddZeroClass Y] in
theorem Current.layer (current : Current net sys m il L ids) : sys.rt.layers il = some L :=
  remapped_layer current.found

theorem Good.current (good : Good net sys m) (fit : Fit net sys reads) {todo : List Nat}
    (next : m.todo = il :: todo) : ∃ L, Current net sys m il L (net.selected il m.x) := by
  have member : il ∈ net.layers := by
    apply good.todo
    rw [next]
    exact List.mem_cons_self
  obtain ⟨L, found, -⟩ := fit.layer member
  exact ⟨L, ⟨todo, next⟩, member, rfl, found⟩

/-- What the thread does beside the graph keeps what holds of the node at work. -/
theorem OpOk.work {arena : Prefill.State}
    (step : Prefill.Step sys.arena reads.arena m.arena arena)
    (own : arena.phase.call = m.arena.phase.call) (ok : OpOk net sys m m.op) :
    OpOk net sys { m with arena := arena } m.op := by
  have idle : m.arena.phase = .idle → arena.phase = .idle := by
    intro idle
    rw [idle] at own
    exact Prefill.Phase.idle_of_call own
  cases op : m.op with
  | ready =>
      rw [op] at ok
      exact idle ok
  | loading ids =>
      rw [op] at ok
      obtain ⟨il, L, current, layer, at_work⟩ := ok
      exact ⟨il, L, ⟨current.next, current.member, current.ids, current.found⟩, layer,
        own.trans at_work⟩
  | arena ids looks =>
      rw [op] at ok
      obtain ⟨il, L, current, layer, computing, sound⟩ := ok
      exact ⟨il, L, ⟨current.next, current.member, current.ids, current.found⟩, layer,
        step.beside computing own, sound⟩
  | pass ids pass acc =>
      rw [op] at ok
      obtain ⟨before, il, L, current, rest⟩ := ok
      exact ⟨idle before, il, L, ⟨current.next, current.member, current.ids, current.found⟩, rest⟩
  | slab ids pass acc out looks =>
      rw [op] at ok
      obtain ⟨before, il, L, current, rest⟩ := ok
      exact ⟨idle before, il, L, ⟨current.next, current.member, current.ids, current.found⟩, rest⟩

theorem Step.good (fit : Fit net sys reads) (good : Good net sys m)
    (step : Step net sys reads m m') : Good net sys m' := by
  have ok := good.op
  cases step with
  | feed ready done more =>
      rw [ready] at ok
      exact ⟨good.slab, good.arena, fun il member => member, by simpa only [OpOk, ready] using ok⟩
  | @insert il todo arena ready next path call waiting =>
      obtain ⟨L, current⟩ := good.current fit next
      refine ⟨good.slab, fit.sound good.arena call, good.todo, il, L,
        ⟨current.next, current.member, rfl, current.found⟩, ?_, by rw [waiting]; rfl⟩
      cases layer : sys.arena.layers il with
      | none => simp [System.prefills, layer] at path
      | some L' => rw [← current.layer, ← fit.same il L' layer]
  | @work arena step own =>
      exact ⟨good.slab, fit.sound good.arena step, good.todo, ok.work step own⟩
  | @launch il L ids loading computing layer =>
      rw [loading] at ok
      obtain ⟨il', L', current, layer', at_work⟩ := ok
      rw [computing] at at_work
      cases at_work
      cases layer.symm.trans layer'
      exact ⟨good.slab, good.arena, good.todo, il, L,
        ⟨current.next, current.member, current.ids, current.found⟩, layer, computing,
        Gather.Sound.start _ _ _⟩
  | @fetch il todo L ids first look later seen at_work next layer =>
      rw [at_work] at ok
      obtain ⟨il', L', current, layer', computing, sound⟩ := ok
      cases current.of_next next
      cases layer.symm.trans layer'
      refine ⟨good.slab, good.arena, good.todo, il, L,
        ⟨current.next, current.member, current.ids, current.found⟩, layer, computing,
        sound.look ?_⟩
      obtain ⟨n, role, i⟩ := look
      intro listed
      obtain ⟨bound, width⟩ := mem_looksOf.mp listed
      have experts := fit.product.same il L current.layer
      have inRange : 0 ≤ ids.list[n] ∧ ids.list[n] < sys.sizing.nExpert := by
        apply (fit.router il m.x).inRange
        rw [← current.ids]
        exact List.getElem_mem bound
      have read := good.arena.computing computing layer (List.getElem?_eq_getElem bound) inRange.1
        (by omega) role width
      have index : idAt ids n = ids.list[n].toNat := by
        rw [idAt, List.getD_eq_getElem?_getD, List.getElem?_eq_getElem bound]
        rfl
      simp only [arenaLook, wantExpert, index]
      rw [← fit.shards]
      exact read
  | @finish il todo L ids seen arena done next layer step idle =>
      exact ⟨good.slab, fit.sound good.arena step, fun il' member => good.todo il' (by
        rw [next]
        exact List.mem_cons_of_mem il member), idle⟩
  | @sweep il todo ready next path =>
      rw [ready] at ok
      obtain ⟨L, current⟩ := good.current fit next
      exact ⟨good.slab, good.arena, good.todo, ok, il, L,
        ⟨current.next, current.member, rfl, current.found⟩, path,
        (fit.passes (net.selected il m.x)).1, rfl⟩
  | @remap il todo L ids pass acc io due next layer result =>
      rw [due] at ok
      obtain ⟨idle, il', L', current, path, inside, sums⟩ := ok
      cases current.of_next next
      cases layer.symm.trans current.layer
      obtain ⟨steady, answers⟩ := fit.remap current good.slab path inside result
      exact ⟨steady, good.arena, good.todo, idle, il, L,
        ⟨current.next, current.member, current.ids, current.found⟩, path, inside, sums, answers,
        Gather.Sound.start _ _ _⟩
  | @read il todo L ids pass acc out first look later seen at_work next layer =>
      rw [at_work] at ok
      obtain ⟨idle, il', L', current, path, inside, sums, answers, sound⟩ := ok
      cases current.of_next next
      cases layer.symm.trans current.layer
      exact ⟨good.slab, good.arena, good.todo, idle, il, L,
        ⟨current.next, current.member, current.ids, current.found⟩, path, inside, sums, answers,
        sound.look fun listed => answers look listed⟩
  | @add il todo L ids pass acc out seen done next layer more =>
      rw [done] at ok
      obtain ⟨idle, il', L', current, path, inside, sums, answers, sound⟩ := ok
      cases current.of_next next
      cases layer.symm.trans current.layer
      refine ⟨good.slab, good.arena, good.todo, idle, il, L,
        ⟨current.next, current.member, current.ids, current.found⟩, path, more, ?_⟩
      rw [contributions_slab fit layer current.ids inside sound, sums, accumulate_partials]
      rfl
  | @join il todo L ids pass acc out seen done next layer last =>
      rw [done] at ok
      exact ⟨good.slab, good.arena, fun il' member => good.todo il' (by
        rw [next]
        exact List.mem_cons_of_mem il member), ok.1⟩

theorem Step.follows (fit : Fit net sys reads) (good : Good net sys m)
    (step : Step net sys reads m m') : m'.progress = m.progress ∨
      (net.resident sys.weights).Next m.progress m'.progress := by
  have ok := good.op
  cases step with
  | @feed b batches ready done more =>
      right
      simp only [Machine.progress, done, more]
      exact Staged.Next.feed
  | @finish il todo L ids seen arena done next layer step idle =>
      right
      rw [done] at ok
      obtain ⟨il', L', current, layer', computing, sound⟩ := ok
      cases current.of_next next
      cases layer.symm.trans layer'
      simp only [Machine.progress, next]
      rw [contributions_arena current.layer sound, current.ids]
      exact Staged.Next.stage
  | @join il todo L ids pass acc out seen done next layer last =>
      right
      rw [done] at ok
      obtain ⟨-, il', L', current, -, inside, sums, -, sound⟩ := ok
      cases current.of_next next
      cases layer.symm.trans current.layer
      simp only [Machine.progress, next]
      rw [contributions_slab fit layer current.ids inside sound, sums,
        passes_add fit layer current.ids inside last, current.ids]
      exact Staged.Next.stage
  | _ => exact Or.inl rfl

/-! ## What is left to do -/

def Op.rank : Op Y → Nat
  | .ready => 2
  | .loading _ => 1
  | _ => 0

def Op.passesLeft (sys : System) : Op Y → Nat
  | .pass ids p _ => 2 * (sys.passes ids - p)
  | .slab ids p _ _ _ => 2 * (sys.passes ids - p) - 1
  | _ => 0

def Op.looksLeft : Op Y → Nat
  | .arena _ looks => looks.left.length
  | .slab _ _ _ _ looks => looks.left.length
  | _ => 0

/-- The layers, the nodes of the layer, its passes, the bytes to read, and the
load op with its thread. -/
def Machine.size (net : Network B X Y) (sys : System) (m : Machine B X Y) :
    Nat ×ₗ Nat ×ₗ Nat ×ₗ Nat ×ₗ Nat ×ₗ Nat ×ₗ Nat :=
  toLex (m.batches.length * (net.layers.length + 1) + m.todo.length,
    toLex (m.op.rank, toLex (m.op.passesLeft sys, toLex (m.op.looksLeft, m.arena.size))))

theorem Step.smaller (good : Good net sys m) (step : Step net sys reads m m') :
    m'.size net sys < m.size net sys := by
  have ok := good.op
  simp only [Machine.size, Prod.Lex.toLex_lt_toLex]
  cases step with
  | feed ready done more =>
      left
      simp only [done, more, List.length_cons, List.length_nil, Nat.add_mul]
      omega
  | insert ready next path call waiting =>
      right
      simp [ready, Op.rank]
  | work step own =>
      exact Or.inr ⟨rfl, Or.inr ⟨rfl, Or.inr ⟨rfl, Or.inr ⟨rfl, step.smaller own⟩⟩⟩⟩
  | launch loading computing layer =>
      right
      simp [loading, Op.rank]
  | fetch at_work next layer =>
      right
      simp [at_work, Op.rank, Op.passesLeft, Op.looksLeft]
  | finish done next layer step idle =>
      left
      simp [next]
  | sweep ready next path =>
      right
      simp [ready, Op.rank]
  | remap due next layer result =>
      rw [due] at ok
      obtain ⟨-, _, _, -, -, inside, -⟩ := ok
      refine Or.inr ⟨rfl, Or.inr ⟨by rw [due]; rfl, Or.inl ?_⟩⟩
      simp only [due, Op.passesLeft]
      omega
  | read at_work next layer =>
      right
      simp [at_work, Op.rank, Op.passesLeft, Op.looksLeft]
  | add done next layer more =>
      refine Or.inr ⟨rfl, Or.inr ⟨by rw [done]; rfl, Or.inl ?_⟩⟩
      simp only [done, Op.passesLeft]
      omega
  | join done next layer last =>
      left
      simp [next]

theorem Good.onward (fit : Fit net sys reads) (good : Good net sys m) {p : Progress B Nat X}
    (more : (net.resident sys.weights).Next m.progress p) : ∃ m', Step net sys reads m m' := by
  have ok := good.op
  obtain ⟨⟨pread, arenaIo⟩, ⟨io, slabIo⟩⟩ := fit.answers
  cases op : m.op with
  | ready =>
      rw [op] at ok
      cases todo : m.todo with
      | nil =>
          cases batches : m.batches with
          | nil =>
              simp only [Machine.progress, todo, batches] at more
              exact absurd more (Staged.next_end _ _)
          | cons b rest => exact ⟨_, .feed op todo batches⟩
      | cons il rest =>
          cases path : sys.prefills il (net.selected il m.x).ne1 with
          | false => exact ⟨_, .sweep op todo path⟩
          | true =>
              have inserted :
                  (sys.arena.layers (Prefill.Call.mk il (net.selected il m.x)).il).isSome := by
                simp only [System.prefills, Bool.and_eq_true] at path
                exact path.2
              exact ⟨_, .insert op todo path (.call ok inserted) rfl⟩
  | loading ids =>
      rw [op] at ok
      obtain ⟨il, L, current, layer, at_work⟩ := ok
      by_cases computing : m.arena.phase = .computing ⟨il, ids⟩
      · exact ⟨_, .launch op computing layer⟩
      · obtain ⟨arena, step, own⟩ := Prefill.load_onward arenaIo at_work computing
        exact ⟨_, .work step own⟩
  | arena ids looks =>
      rw [op] at ok
      obtain ⟨il, L, current, layer, computing, -⟩ := ok
      obtain ⟨todo, next⟩ := current.next
      obtain ⟨left, seen⟩ := looks
      cases left with
      | nil => exact ⟨_, .finish op next layer (.finish computing) rfl⟩
      | cons look rest =>
          have at_work : m.op = .arena ids ⟨[] ++ look :: rest, seen⟩ := op
          exact ⟨_, .fetch at_work next layer⟩
  | pass ids pass acc =>
      rw [op] at ok
      obtain ⟨-, il, L, current, -⟩ := ok
      obtain ⟨todo, next⟩ := current.next
      exact ⟨_, .remap op next current.layer slabIo⟩
  | slab ids pass acc out looks =>
      rw [op] at ok
      obtain ⟨-, il, L, current, -⟩ := ok
      obtain ⟨todo, next⟩ := current.next
      obtain ⟨left, seen⟩ := looks
      cases left with
      | nil =>
          by_cases again : pass + 1 < sys.passes ids
          · exact ⟨_, .add op next current.layer again⟩
          · exact ⟨_, .join op next current.layer again⟩
      | cons look rest =>
          have at_work : m.op = .slab ids pass acc out ⟨[] ++ look :: rest, seen⟩ := op
          exact ⟨_, .read at_work next current.layer⟩

/-! ## Every run -/

theorem streamed_refines (fit : Fit net sys reads) :
    Refines (Step net sys reads) (net.resident sys.weights).Next Machine.progress (Good net sys)
      (Machine.size net sys) where
  keeps := fun good step => step.good fit good
  follows := fun good step => step.follows fit good
  shrinks := fun good step => step.smaller good
  onward := fun good more => good.onward fit more

/-- Whatever the order in which the graph, the reads of a multiplication, the load
op and the thread take their steps, a streamed model comes to an end, and its end
is the result of the resident model. -/
theorem streamed_computes (fit : Fit net sys reads) (mem : Memory)
    (arena : ArenaCell → Byte) (prev : Nat → Option (Nat → Bool)) (dst : Nat → Int)
    (x : X) (batches : List B) :
    Computes (Step net sys reads) Machine.progress
      (Machine.start sys sys.sizing.nExpert mem (Prefill.State.start arena prev dst) x batches)
      ⟨(net.resident sys.weights).run x batches, [], []⟩ := by
  have start : Good net sys (Machine.start sys sys.sizing.nExpert mem
      (Prefill.State.start arena prev dst) x batches) := by
    refine ⟨Steady.start fit.product mem, Prefill.Sound.start arena prev dst, ?_, rfl⟩
    intro il member
    cases member
  apply (streamed_refines fit).computes Staged.next_deterministic start
  · exact Staged.next_run x batches
  · exact fun p => Staged.next_end _ p

end MoeStream.Inference
