import MoeStream.Cache.Rows

/-!
# Working sets

A layer that is asked for no more experts than its quota never gives one up: each
misses once, when it is first asked for.  A layer that is asked for more keeps
the experts of MAIN as long as the others come once: a scan passes through SMALL.
-/

set_option autoImplicit false

namespace MoeStream

open Foundation.FixedWidth

namespace ExpertCache

variable {c c' : ExpertCache} {l e : Nat} {seen : List Nat}

/-! ## A miss below the quota -/

/-- A layer below its quota admits to a free slot, and to the queue that the ghost
list says. -/
theorem Apportioned.acquire_below (apportioned : c.Apportioned) (layer : l < c.cfg.nLayer)
    (inside : e < c.cfg.nExpert) (below : (c.lay l).resident < c.quota l)
    (absent : (c.entry l e).seg = .none) {origin : Origin} (admits : origin ≠ .sweep) :
    ∃ s rest, s ≠ NO_SLOT ∧ c.acquire l e origin =
      (({ c.missed l e with free := rest } : ExpertCache).admitTo l e origin
        (decide (e ∈ (c.lay l).ghost)) s, false, s) := by
  have missed := apportioned.missed layer inside
  have room : ((c.missed l e).lay l).resident < (c.missed l e).quota l := by
    rw [(apportioned.ok.missed layer inside).resident]
    exact below
  obtain ⟨s, rest, available⟩ := missed.free_below layer room
  have named : s ≠ NO_SLOT := missed.free_named (by rw [available]; exact List.mem_cons_self)
  have allots : (c.missed l e).allocSlot l = ({ c.missed l e with free := rest }, s) := by
    simp only [ExpertCache.allocSlot, allocFree]
    rw [if_neg (Nat.not_le_of_lt room), available]
  refine ⟨s, rest, named, ?_⟩
  rw [acquire_eq, if_neg (not_not.mpr absent),
    acquireMiss_eq origin (apportioned.ok.table _ (c.idx_lt_total layer inside)), if_neg admits,
    allots, if_neg named]

/-- After an admission the expert has a segment, and nothing else of the layer
changed its own. -/
theorem admitted_seg (c : ExpertCache) (l e : Nat) (origin : Origin) (wasGhost : Bool) (s : Nat)
    (rest : List Nat) (e' : Nat) :
    ((({ c with free := rest } : ExpertCache).admitTo l e origin wasGhost s).entry l e').seg =
      if e' = e then ((c.lay l).enqueue e origin wasGhost).2 else (c.entry l e').seg := by
  rw [admitTo_eq]
  by_cases own : e' = e <;> simp [own]

@[simp] theorem missed_seg (c : ExpertCache) (l e e' : Nat) :
    ((c.missed l e).entry l e').seg = (c.entry l e').seg := by
  rw [missed]
  by_cases own : e' = e <;> simp [own]

theorem enqueue_present (ls : LayerState) (e : Nat) (origin : Origin) (wasGhost : Bool) :
    (ls.enqueue e origin wasGhost).2 ≠ .none := by
  unfold LayerState.enqueue
  split
  · nofun
  · split <;> nofun

theorem Ok.hit_present (ok : c.Ok) (layer : l < c.cfg.nLayer) (inside : e < c.cfg.nExpert)
    (present : (c.entry l e).seg ≠ .none) (origin : Origin) :
    outcome (c.acquire l e origin) = .hit ∧ ∀ e', e' < c.cfg.nExpert →
      (((c.acquire l e origin).1.entry l e').seg ≠ .none ↔ (c.entry l e').seg ≠ .none) := by
  have acquired := (ok.acquire layer inside origin).2
  have cfg := (ok.acquire layer inside origin).1.cfg
  have seat : ∀ (d : ExpertCache) (k : Nat), d.seats (d.idx l k) = none ↔
      (d.entry l k).seg = .none := fun d k => Entry.held_none
  have found : c.seats (c.idx l e) ≠ none := (seat c e).not.mpr present
  revert acquired cfg
  generalize c.acquire l e origin = result
  intro acquired cfg
  cases acquired with
  | @hit c' s held seats rcs free =>
      refine ⟨rfl, ?_⟩
      intro e' _
      have index : c'.idx l e' = c.idx l e' := by
        simp only [idx]
        rw [show c'.cfg = c.cfg from cfg]
      have same := seat c' e'
      rw [seats, index] at same
      exact not_congr (same.symm.trans (seat c e'))
  | refused absent => exact absurd absent found
  | granted absent => exact absurd absent found
  | replaced absent => exact absurd absent found

/-! ## A working set that fits -/

def asked (l : Nat) : List Op → Finset Nat
  | [] => ∅
  | .acquire k e origin :: rest =>
      if k = l ∧ origin ≠ .sweep then insert e (asked l rest) else asked l rest
  | _ :: rest => asked l rest

/-- The outcomes on a layer that keeps all it was given: a hit for an expert that
was asked for before. -/
def coldMisses (l : Nat) (seen : List Nat) : List Op → List Outcome
  | [] => []
  | .acquire k e origin :: rest =>
      if k = l then
        if e ∈ seen then .hit :: coldMisses l seen rest
        else if origin = .sweep then .refused :: coldMisses l seen rest
        else .admitted :: coldMisses l (e :: seen) rest
      else coldMisses l seen rest
  | _ :: rest => coldMisses l seen rest

structure Keeps (c : ExpertCache) (l : Nat) (seen : List Nat) : Prop where
  apportioned : c.Apportioned
  static : c.cfg.layerQuotaAdapt = false
  layer : l < c.cfg.nLayer
  nodup : seen.Nodup
  inside : ∀ e ∈ seen, e < c.cfg.nExpert
  present : ∀ e, e < c.cfg.nExpert → ((c.entry l e).seg ≠ .none ↔ e ∈ seen)

theorem Keeps.resident (keeps : Keeps c l seen) : (c.lay l).resident = seen.length := by
  rw [keeps.apportioned.ok.represents.resident l keeps.layer]
  apply (length_eq_countP keeps.nodup ?_).symm
  intro e
  rw [decide_eq_true_eq]
  constructor
  · intro listed
    have inside := keeps.inside e listed
    exact ⟨inside, (keeps.present e inside).mpr listed⟩
  · exact fun both => (keeps.present e both.1).mp both.2

theorem Keeps.same (keeps : Keeps c l seen) (apportioned : c'.Apportioned)
    (cfg : c'.cfg = c.cfg)
    (present : ∀ e, e < c.cfg.nExpert → (c'.entry l e).seg = (c.entry l e).seg) :
    Keeps c' l seen where
  apportioned := apportioned
  static := by rw [cfg]; exact keeps.static
  layer := by rw [cfg]; exact keeps.layer
  nodup := keeps.nodup
  inside := by rw [cfg]; exact keeps.inside
  present := by
    rw [cfg]
    intro e inside
    rw [present e inside]
    exact keeps.present e inside

theorem Keeps.other (keeps : Keeps c l seen) {k : Nat} (other : l ≠ k) (within : Within c k c')
    (apportioned : c'.Apportioned) : Keeps c' l seen :=
  keeps.same apportioned within.cfg fun e inside => by rw [within.entries l e other inside]

theorem Keeps.hit (keeps : Keeps c l seen) (listed : e ∈ seen) (origin : Origin) :
    outcome (c.acquire l e origin) = .hit ∧ Keeps (c.acquire l e origin).1 l seen := by
  have inside := keeps.inside e listed
  have ok := keeps.apportioned.ok
  obtain ⟨within, kept⟩ := keeps.apportioned.acquire keeps.layer inside origin
  obtain ⟨hit, present⟩ := ok.hit_present keeps.layer inside
    ((keeps.present e inside).mpr listed) origin
  refine ⟨hit, kept, ?_, ?_, keeps.nodup, ?_, ?_⟩
  all_goals rw [within.cfg]
  · exact keeps.static
  · exact keeps.layer
  · exact keeps.inside
  · intro e' small
    rw [present e' small]
    exact keeps.present e' small

theorem Keeps.sweep (keeps : Keeps c l seen) (inside : e < c.cfg.nExpert) (fresh : e ∉ seen) :
    outcome (c.acquire l e .sweep) = .refused ∧ Keeps (c.acquire l e .sweep).1 l seen := by
  have absent : (c.entry l e).seg = .none :=
    not_not.mp fun present => fresh ((keeps.present e inside).mp present)
  obtain ⟨within, kept⟩ := keeps.apportioned.acquire keeps.layer inside .sweep
  have result := acquire_eq c l e .sweep
  rw [if_neg (not_not.mpr absent), acquireMiss_eq .sweep
    (keeps.apportioned.ok.table _ (c.idx_lt_total keeps.layer inside)), if_pos rfl] at result
  rw [result] at within kept ⊢
  exact ⟨rfl, keeps.same kept within.cfg fun e' _ => missed_seg c l e e'⟩

theorem Keeps.admit (keeps : Keeps c l seen) (inside : e < c.cfg.nExpert) (fresh : e ∉ seen)
    (room : seen.length < c.quota l) {origin : Origin} (admits : origin ≠ .sweep) :
    outcome (c.acquire l e origin) = .admitted ∧ Keeps (c.acquire l e origin).1 l (e :: seen) := by
  have absent : (c.entry l e).seg = .none :=
    not_not.mp fun present => fresh ((keeps.present e inside).mp present)
  obtain ⟨within, kept⟩ := keeps.apportioned.acquire keeps.layer inside origin
  obtain ⟨s, rest, named, result⟩ := keeps.apportioned.acquire_below keeps.layer inside
    (by rw [keeps.resident]; exact room) absent admits
  refine ⟨?_, kept, ?_, ?_, List.nodup_cons.mpr ⟨fresh, keeps.nodup⟩, ?_, ?_⟩
  · rw [result]
    simp only [outcome, named, Bool.false_eq_true, if_false]
  · rw [within.cfg]
    exact keeps.static
  · rw [within.cfg]
    exact keeps.layer
  · rw [within.cfg]
    intro e' listed
    rcases List.mem_cons.mp listed with rfl | before
    · exact inside
    · exact keeps.inside e' before
  · rw [within.cfg]
    intro e' small
    rw [result]
    dsimp only
    rw [admitted_seg, missed_seg, List.mem_cons]
    by_cases own : e' = e
    · rw [if_pos own]
      exact iff_of_true (enqueue_present _ e origin _) (Or.inl own)
    · rw [if_neg own, keeps.present e' small]
      exact (or_iff_right own).symm

theorem asked_own (l e : Nat) (rest : List Op) {origin : Origin} (admits : origin ≠ .sweep) :
    asked l (.acquire l e origin :: rest) = insert e (asked l rest) :=
  if_pos ⟨rfl, admits⟩

@[simp] theorem asked_sweep (l k e : Nat) (rest : List Op) :
    asked l (.acquire k e .sweep :: rest) = asked l rest :=
  if_neg fun both => both.2 rfl

theorem asked_moves (seen : List Nat) (l e : Nat) (rest : List Op) {origin : Origin}
    (admits : origin ≠ .sweep) :
    seen.toFinset ∪ asked l (.acquire l e origin :: rest) =
      (e :: seen).toFinset ∪ asked l rest := by
  rw [asked_own l e rest admits, List.toFinset_cons, Finset.union_insert, Finset.insert_union]

/-- A request for what was asked for before asks for nothing more. -/
theorem asked_again (l : Nat) (rest : List Op) (origin : Origin) (listed : e ∈ seen) :
    seen.toFinset ∪ asked l rest = seen.toFinset ∪ asked l (.acquire l e origin :: rest) := by
  by_cases sweep : origin = .sweep
  · rw [sweep, asked_sweep]
  · rw [asked_own l e rest sweep, Finset.union_insert, Finset.insert_eq_of_mem]
    exact Finset.mem_union_left _ (List.mem_toFinset.mpr listed)

/-- What a run asks for anew has room in what the run asks for in all. -/
theorem asked_room (nodup : seen.Nodup) (fresh : e ∉ seen) {n : Nat} {more : Finset Nat}
    (fits : ((e :: seen).toFinset ∪ more).card ≤ n) : seen.length < n := by
  calc seen.length < (e :: seen).length := Nat.lt_succ_self _
    _ = (e :: seen).toFinset.card :=
      (List.toFinset_card_of_nodup (List.nodup_cons.mpr ⟨fresh, nodup⟩)).symm
    _ ≤ ((e :: seen).toFinset ∪ more).card := Finset.card_le_card Finset.subset_union_left
    _ ≤ n := fits

theorem Keeps.run (keeps : Keeps c l seen) (ops : List Op)
    (inRange : ∀ op ∈ ops, op.InRange c.cfg)
    (unpinned : ∀ op ∈ ops, ∀ freq order, op ≠ .buildPinned freq order)
    (fits : (seen.toFinset ∪ asked l ops).card ≤ c.quota l) :
    outcomes l c ops = coldMisses l seen ops ∧
      ∃ kept, kept.toFinset = seen.toFinset ∪ asked l ops ∧ Keeps (c.run ops) l kept := by
  induction ops generalizing c seen with
  | nil => exact ⟨rfl, seen, (Finset.union_empty _).symm, keeps⟩
  | cons op rest ih =>
      have here := inRange op List.mem_cons_self
      have plain : ∀ op ∈ rest, ∀ freq order, op ≠ .buildPinned freq order :=
        fun op' member => unpinned op' (List.mem_cons_of_mem op member)
      have apportioned := keeps.apportioned
      -- what is left of the run, from the state after this operation
      have later : ∀ {c' : ExpertCache} {kept : List Nat} {j : Nat}, Keeps c' l kept →
          Within c j c' → kept.toFinset ∪ asked l rest = seen.toFinset ∪ asked l (op :: rest) →
          outcomes l c' rest = coldMisses l kept rest ∧
            ∃ last, last.toFinset = seen.toFinset ∪ asked l (op :: rest) ∧
              Keeps (c'.run rest) l last := by
        intro c' kept j after within same
        rw [← same]
        apply ih after _ plain
        · rw [same, within.quota]
          exact fits
        · rw [within.cfg]
          exact fun op' member => inRange op' (List.mem_cons_of_mem op member)
      cases op with
      | acquire k e origin =>
          obtain ⟨layer, inside⟩ := here
          obtain ⟨within, kept⟩ := apportioned.acquire layer inside origin
          by_cases own : k = l
          · subst own
            by_cases listed : e ∈ seen
            · obtain ⟨hit, after⟩ := keeps.hit listed origin
              obtain ⟨answers, last⟩ := later after within (asked_again k rest origin listed)
              refine ⟨?_, last⟩
              simp only [outcomes, coldMisses, if_true, listed, hit, answers]
            · by_cases sweep : origin = .sweep
              · subst sweep
                obtain ⟨refused, after⟩ := keeps.sweep inside listed
                obtain ⟨answers, last⟩ := later after within (by rw [asked_sweep])
                refine ⟨?_, last⟩
                simp only [outcomes, coldMisses, if_true, listed, if_false, refused, answers]
              · have moved := asked_moves seen k e rest sweep
                have room := asked_room keeps.nodup listed (moved ▸ fits)
                obtain ⟨admitted, after⟩ := keeps.admit inside listed room sweep
                obtain ⟨answers, last⟩ := later after within moved.symm
                refine ⟨?_, last⟩
                simp only [outcomes, coldMisses, if_true, listed, if_false, sweep, admitted,
                  answers]
          · have skipped : asked l (.acquire k e origin :: rest) = asked l rest :=
              if_neg fun both => own both.1
            obtain ⟨answers, last⟩ := later (keeps.other (Ne.symm own) within kept) within
              (by rw [skipped])
            refine ⟨?_, last⟩
            simp only [outcomes, coldMisses, own, if_false, answers]
      | markResident k e nbytes =>
          obtain ⟨layer, inside⟩ := here
          obtain ⟨within, kept⟩ := apportioned.markResident layer inside nbytes
          by_cases own : k = l
          · subst own
            exact later (keeps.same kept within.cfg fun e' small =>
              (Alike.marked c k e nbytes).seg small) within rfl
          · exact later (keeps.other (Ne.symm own) within kept) within rfl
      | release k e =>
          obtain ⟨layer, inside⟩ := here
          obtain ⟨within, kept⟩ := apportioned.release layer inside
          by_cases own : k = l
          · subst own
            have dropped := release_dropped (l := k) inside
            have same : ∀ e', ((c.release k e).entry k e').seg = (c.entry k e').seg := by
              intro e'
              rw [dropped.entries e']
            exact later (keeps.same kept within.cfg fun e' _ => same e') within rfl
          · exact later (keeps.other (Ne.symm own) within kept) within rfl
      | endStep =>
          obtain ⟨within, alike⟩ := Within.endStep keeps.static l
          have kept := apportioned.endStep keeps.static keeps.layer
          exact later (keeps.same kept within.cfg fun e' small => alike.seg small) within rfl
      | buildPinned freq order =>
          exact absurd rfl (unpinned _ List.mem_cons_self freq order)

/-- A layer whose requests fit its quota misses each expert once and keeps all it
was given, whatever the other layers are asked for and whenever references are
dropped. -/
theorem workingSet_kept {cfg : Config} (static : cfg.layerQuotaAdapt = false) (ops : List Op)
    (inRange : ∀ op ∈ ops, op.InRange cfg)
    (unpinned : ∀ op ∈ ops, ∀ freq order, op ≠ .buildPinned freq order)
    (layer : l < cfg.nLayer) (fits : (asked l ops).card ≤ (init cfg).quota l) :
    let c := (init cfg).run ops
    outcomes l (init cfg) ops = coldMisses l [] ops ∧
      (c.lay l).resident = (asked l ops).card ∧
      ∀ e, e < cfg.nExpert → ((c.entry l e).seg ≠ .none ↔ e ∈ asked l ops) := by
  intro c
  have layers : 0 < cfg.nLayer := Nat.lt_of_le_of_lt (Nat.zero_le l) layer
  have empty : Keeps (init cfg) l [] :=
    ⟨init_apportioned layers, static, layer, List.nodup_nil, nofun, fun e _ =>
      iff_of_false (fun present => present rfl) List.not_mem_nil⟩
  have same : ([] : List Nat).toFinset ∪ asked l ops = asked l ops := Finset.empty_union _
  obtain ⟨answers, kept, members, keeps⟩ :=
    empty.run ops inRange unpinned (by rw [same]; exact fits)
  rw [same] at members
  have cfgs : c.cfg = cfg := ((init_ok cfg).run ops inRange).2.1
  refine ⟨answers, ?_, ?_⟩
  · rw [← members, List.toFinset_card_of_nodup keeps.nodup]
    exact keeps.resident
  · intro e inside
    rw [← members, List.mem_toFinset]
    exact keeps.present e (by rw [cfgs]; exact inside)

/-- Layer 0 has two slots for the two experts it is asked for; layer 1 has one
for two. -/
theorem workingSet_kept_two :
    outcomes 0 (init twoLayers) [.acquire 0 0 .demand, .acquire 1 1 .demand, .acquire 0 2 .demand,
      .release 0 0, .release 1 1, .acquire 1 2 .demand, .acquire 0 0 .demand,
      .acquire 0 1 .sweep, .acquire 0 2 .demand] =
        [.admitted, .admitted, .hit, .refused, .hit] := by
  exact (@workingSet_kept 0 twoLayers rfl
    [.acquire 0 0 .demand, .acquire 1 1 .demand, .acquire 0 2 .demand, .release 0 0,
      .release 1 1, .acquire 1 2 .demand, .acquire 0 0 .demand, .acquire 0 1 .sweep,
      .acquire 0 2 .demand]
    (by simp [Op.InRange, twoLayers]) (by simp) (by decide) (by decide)).1

end ExpertCache

end MoeStream
