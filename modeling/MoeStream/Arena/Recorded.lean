import MoeStream.Arena.DenseServes
import MoeStream.Arena.PrefillServes
import MoeStream.Slab.Recorded

/-!
# What the arenas record

`load_layer_arena` marks an expert present before it is read, and
`dense_load_layer` names a layer after its reads whatever these brought.  As in
the slab, the record is right after a load exactly if every byte of the load has
arrived or was in place before.
-/

set_option autoImplicit false

namespace MoeStream

open Foundation.Writes

namespace Prefill

variable {a : Arena} {g : Residency} {mem : ArenaCell → Byte} {il : Nat} {L : LayerSlabs}
  {need : Option (Nat → Bool)} {pread : ReadJob → Nat → Nat → Int}
  {order : List (ArenaCell × Byte) → List (ArenaCell × Byte)}

def Recorded (a : Arena) (g : Residency) (mem : ArenaCell → Byte) : Prop :=
  ∀ il L, a.layers il = some L → g.arenaLayer (il % a.nbuf) = some il →
    ∀ e, e < L.gate.nExpert → g.arenaHave (il % a.nbuf) e = true →
      ∀ role i, i < (L.role role).expertBytes →
        mem (a.dst il L role e i) = a.shards.expert (L.role role) e i

/-- `load_layer_arena`, whose reads arrive in the order `order`. -/
def Arena.loaded (a : Arena) (il : Nat) (need : Option (Nat → Bool))
    (pread : ReadJob → Nat → Nat → Int)
    (order : List (ArenaCell × Byte) → List (ArenaCell × Byte)) (g : Residency)
    (mem : ArenaCell → Byte) : Residency × (ArenaCell → Byte) :=
  ((a.loadLayerArena il need g).1,
    applyWrites mem (order (a.reads il pread (a.loadLayerArena il need g).2)))

/-- Every byte the load reads arrives, or is in place before. -/
def LoadArrives (a : Arena) (il : Nat) (need : Option (Nat → Bool))
    (pread : ReadJob → Nat → Nat → Int) (g : Residency) (mem : ArenaCell → Byte) : Prop :=
  ∀ L, a.layers il = some L → ∀ job ∈ (a.loadLayerArena il need g).2,
    ∀ i, i < (L.role job.role).expertBytes →
      i < arrived a.shards (L.role job.role) (pread job) ∨
        mem (a.dst il L job.role job.expert i) = a.shards.expert (L.role job.role) job.expert i

def Residency.Has (g : Residency) (a : Arena) (il e : Nat) : Prop :=
  g.arenaLayer (il % a.nbuf) = some il ∧ g.arenaHave (il % a.nbuf) e = true

theorem has_iff {e : Nat} : (if g.arenaLayer (il % a.nbuf) = some il then
    g.arenaHave (il % a.nbuf) else fun _ => false) e = true ↔ g.Has a il e := by
  simp only [Residency.Has]
  split
  · rename_i same
    exact ⟨fun present => ⟨same, present⟩, And.right⟩
  · rename_i other
    exact iff_of_false Bool.false_ne_true fun has => other has.1

def Missing (a : Arena) (L : LayerSlabs) (il : Nat) (need : Option (Nat → Bool)) (g : Residency)
    (e : Nat) : Prop :=
  e < L.gate.nExpert ∧ need.elim true (fun need => need e) = true ∧ ¬g.Has a il e

theorem mem_missing {e : Nat} : e ∈ (List.range L.gate.nExpert).filter (fun e =>
    need.elim true (fun need => need e) && !(if g.arenaLayer (il % a.nbuf) = some il then
      g.arenaHave (il % a.nbuf) else fun _ => false) e) ↔ Missing a L il need g e := by
  rw [List.mem_filter, List.mem_range, Bool.and_eq_true, Bool.not_eq_true', ← Bool.not_eq_true,
    has_iff]
  rfl

theorem mem_jobs (registered : a.layers il = some L) {job : ReadJob} :
    job ∈ (a.loadLayerArena il need g).2 ↔
      ∃ role e, Missing a L il need g e ∧ job = ⟨role, e, 0, none⟩ := by
  simp only [Arena.loadLayerArena]
  rw [registered]
  dsimp only
  constructor
  · intro listed
    obtain ⟨e, missing, member⟩ := List.mem_flatMap.mp listed
    obtain ⟨role, -, rfl⟩ := List.mem_map.mp member
    exact ⟨role, e, mem_missing.mp missing, rfl⟩
  · rintro ⟨role, e, missing, rfl⟩
    apply List.mem_flatMap.mpr
    exact ⟨e, mem_missing.mpr missing, List.mem_map.mpr ⟨role, role.mem_all, rfl⟩⟩

variable (need g) in
/-- Afterwards the buffer is the layer's, with what it had and what was missing. -/
theorem loaded_residency (registered : a.layers il = some L) :
    (a.loadLayerArena il need g).1.arenaLayer (il % a.nbuf) = some il ∧
      (∀ e, (a.loadLayerArena il need g).1.arenaHave (il % a.nbuf) e = true ↔
        g.Has a il e ∨ Missing a L il need g e) ∧
      ∀ bi, bi ≠ il % a.nbuf →
        (a.loadLayerArena il need g).1.arenaLayer bi = g.arenaLayer bi ∧
          (a.loadLayerArena il need g).1.arenaHave bi = g.arenaHave bi := by
  simp only [Arena.loadLayerArena]
  rw [registered]
  dsimp only
  refine ⟨Function.update_self _ _ _, ?_, ?_⟩
  · intro e
    rw [Function.update_self, Bool.or_eq_true, has_iff, decide_eq_true_eq, mem_missing]
  · intro bi other
    exact ⟨Function.update_of_ne other _ _, Function.update_of_ne other _ _⟩

section Load

variable (registered : a.layers il = some L) (atMost : ∀ job, AtMost (pread job))
  (perm : ∀ ws, (order ws).Perm ws)

include registered atMost perm

/-- What the load writes is at the address of a byte that a job brought. -/
theorem loaded_source {cell : ArenaCell} {b : Byte}
    (written : (cell, b) ∈ order (a.reads il pread (a.loadLayerArena il need g).2)) :
    ∃ role e i, Missing a L il need g e ∧ i < (L.role role).expertBytes ∧
      i < arrived a.shards (L.role role) (pread ⟨role, e, 0, none⟩) ∧
      cell = a.dst il L role e i ∧ b = a.shards.expert (L.role role) e i := by
  have read := (perm _).mem_iff.mp written
  simp only [Arena.reads] at read
  rw [registered] at read
  obtain ⟨job, listed, brought⟩ := List.mem_flatMap.mp read
  obtain ⟨role, e, missing, rfl⟩ := (mem_jobs registered).mp listed
  obtain ⟨i, reached, place, value⟩ := mem_doRead_arrived.mp brought
  exact ⟨role, e, i, missing, Nat.lt_of_lt_of_le reached (arrived_le (atMost _) _ _), reached,
    place, value⟩

theorem loaded_byte_iff {role : Role} {e i : Nat} (missing : Missing a L il need g e)
    (inside : i < (L.role role).expertBytes) :
    (a.loaded il need pread order g mem).2 (a.dst il L role e i) =
        a.shards.expert (L.role role) e i ↔
      i < arrived a.shards (L.role role) (pread ⟨role, e, 0, none⟩) ∨
        mem (a.dst il L role e i) = a.shards.expert (L.role role) e i := by
  have source : ∀ b, (a.dst il L role e i, b) ∈
      order (a.reads il pread (a.loadLayerArena il need g).2) →
      i < arrived a.shards (L.role role) (pread ⟨role, e, 0, none⟩) ∧
        b = a.shards.expert (L.role role) e i := by
    intro b written
    obtain ⟨role', e', i', missing', inside', reached, place, value⟩ :=
      loaded_source registered atMost perm written
    obtain ⟨rfl, rfl, rfl⟩ := dst_inj registered missing.1 missing'.1 inside inside' place
    exact ⟨reached, value⟩
  simp only [Arena.loaded]
  rw [applyWrites_agreed mem _ fun b written => (source b written).2]
  apply or_congr_left
  constructor
  · exact fun written => (source _ written).1
  · intro reached
    apply (perm _).mem_iff.mpr
    simp only [Arena.reads]
    rw [registered]
    apply List.mem_flatMap.mpr
    refine ⟨⟨role, e, 0, none⟩, (mem_jobs registered).mpr ⟨role, e, missing, rfl⟩, ?_⟩
    exact mem_doRead_arrived.mpr ⟨i, reached, rfl, rfl⟩

/-- The load writes its own buffer only, and no expert that was there. -/
theorem loaded_other {cell : ArenaCell} (other : ∀ role e i, Missing a L il need g e →
    i < (L.role role).expertBytes → cell ≠ a.dst il L role e i) :
    (a.loaded il need pread order g mem).2 cell = mem cell := by
  apply applyWrites_other
  intro b written
  obtain ⟨role, e, i, missing, inside, -, place, -⟩ :=
    loaded_source registered atMost perm written
  exact other role e i missing inside place

end Load

/-- A load leaves no expert recorded that is not in place exactly if every byte
it read arrived or was in place before. -/
theorem loaded_recorded_iff (recorded : Recorded a g mem) (atMost : ∀ job, AtMost (pread job))
    (perm : ∀ ws, (order ws).Perm ws) :
    Recorded a (a.loaded il need pread order g mem).1 (a.loaded il need pread order g mem).2 ↔
      LoadArrives a il need pread g mem := by
  cases layer : a.layers il with
  | none =>
      have nothing : a.loadLayerArena il need g = (g, []) := by
        simp only [Arena.loadLayerArena]
        rw [layer]
      have unread : a.reads il pread [] = [] := by
        simp only [Arena.reads]
        rw [layer]
        rfl
      have silent : order [] = [] := List.perm_nil.mp (perm [])
      simp only [Arena.loaded]
      rw [nothing]
      dsimp only
      rw [unread, silent]
      refine ⟨fun _ L other => ?_, fun _ => recorded⟩
      rw [layer] at other
      cases other
  | some L =>
      obtain ⟨own, has, others⟩ := loaded_residency g need layer
      constructor
      · intro after L' same job listed i inside
        cases layer.symm.trans same
        obtain ⟨role, e, missing, rfl⟩ := (mem_jobs layer).mp listed
        apply (loaded_byte_iff layer atMost perm missing inside).mp
        exact after il L layer own e missing.1 ((has e).mpr (Or.inr missing)) role i inside
      · intro arrives il' L' layer' named e expert present role i inside
        by_cases same : il' = il
        · subst same
          cases layer.symm.trans layer'
          by_cases missing : Missing a L il' need g e
          · apply (loaded_byte_iff layer atMost perm missing inside).mpr
            exact arrives L layer _ ((mem_jobs layer).mpr ⟨role, e, missing, rfl⟩) i inside
          · have before := ((has e).mp present).resolve_right missing
            rw [loaded_other layer atMost perm]
            · exact recorded il' L layer before.1 e expert before.2 role i inside
            · intro role' e' i' missing' inside' place
              obtain ⟨-, rfl, -⟩ := dst_inj layer expert missing'.1 inside inside' place
              exact missing missing'
        · have apart : il' % a.nbuf ≠ il % a.nbuf := by
            intro buffer
            simp only [Arena.loaded] at named
            rw [buffer, own] at named
            exact same (Option.some.inj named).symm
          obtain ⟨sameLayer, sameHave⟩ := others _ apart
          rw [loaded_other layer atMost perm]
          · apply recorded il' L' layer' ?_ e expert ?_ role i inside
            · rw [← sameLayer]
              exact named
            · rw [← sameHave]
              exact present
          · intro role' e' i' _ _ place
            exact apart (Prod.mk.inj place).1

def Residency.empty : Residency := ⟨fun _ => none, fun _ _ => false⟩

theorem pair_unread :
    Recorded pairArena Residency.empty (fun _ => 255) ∧
      ¬Recorded pairArena
        (pairArena.loaded 0 none (fun _ _ _ => 0) id Residency.empty fun _ => 255).1
        (pairArena.loaded 0 none (fun _ _ _ => 0) id Residency.empty fun _ => 255).2 := by
  have before : Recorded pairArena Residency.empty fun _ => 255 := by
    intro il L layer named
    cases named
  have perm : ∀ ws : List (ArenaCell × Byte), (id ws).Perm ws := List.Perm.refl
  refine ⟨before, fun after => ?_⟩
  have arrives := (loaded_recorded_iff before (fun _ _ left => Int.natCast_nonneg left) perm).mp
    after
  have missing : Missing pairArena
      ⟨⟨true, 0, 1, 1, 0⟩, ⟨true, 1, 1, 1, 0⟩, ⟨true, 2, 1, 1, 0⟩, true⟩
      0 none Residency.empty 0 := ⟨Nat.one_pos, rfl, fun has => nomatch has.1⟩
  rcases arrives _ rfl _ ((mem_jobs rfl).mpr ⟨.gate, 0, missing, rfl⟩) 0 Nat.one_pos with
    read | same
  · exact absurd read (Nat.not_lt.mpr (Nat.le_of_eq (arrived_ended _ _)))
  · exact absurd same (by decide)

end Prefill

namespace Dense

variable {d : Arena} {il : Nat} {mem : ArenaCell → Byte} {resident : Nat → Option Nat}
  {pread : DenseInfo → Nat → Nat → Int}
  {order : List (ArenaCell × Byte) → List (ArenaCell × Byte)}

def Recorded (d : Arena) (resident : Nat → Option Nat) (mem : ArenaCell → Byte) : Prop :=
  ∀ il view, d.view il = some view → resident (il % d.nbuf) = some il →
    ∀ v ∈ view, ∀ off, v.arenaOff = some off → ∀ x, x < v.bytes →
      mem (il % d.nbuf, off + x) = weightByte d.shards v x

/-- `dense_load_layer`, whose reads arrive in the order `order`. -/
def Arena.loaded (d : Arena) (il : Nat) (pread : DenseInfo → Nat → Nat → Int)
    (order : List (ArenaCell × Byte) → List (ArenaCell × Byte)) (resident : Nat → Option Nat)
    (mem : ArenaCell → Byte) : (Nat → Option Nat) × (ArenaCell → Byte) :=
  (d.denseLoadLayer il pread resident).elim (resident, mem) fun ws =>
    (Function.update resident (il % d.nbuf) (some il), applyWrites mem (order ws))

/-- Every byte the load reads arrives, or is in place before. -/
def LoadArrives (d : Arena) (il : Nat) (pread : DenseInfo → Nat → Nat → Int)
    (resident : Nat → Option Nat) (mem : ArenaCell → Byte) : Prop :=
  resident (il % d.nbuf) ≠ some il → ∀ w view, d.weights il = some w → d.view il = some view →
    ∀ m v, (m, v) ∈ w.zip view → ∀ off, v.arenaOff = some off → ∀ x, x < m.bytes →
      (d.shards.opened m.fileIdx = true ∧ RangeArrives (pread m) d.threads m.bytes x) ∨
        mem (il % d.nbuf, off + x) = weightByte d.shards m x

theorem zip_before (w : List DenseInfo) (off : Nat) :
    (w.zip (viewFrom w off)).Pairwise fun p q => Before p.2 q.2 := by
  have order := viewFrom_before w off
  have lengths : w.length = (viewFrom w off).length := by
    induction w generalizing off with
    | nil => rfl
    | cons m rest ih =>
        simp only [viewFrom]
        split
        · exact congrArg (· + 1) (ih _ (viewFrom_before rest _))
        · exact congrArg (· + 1) (ih _ (viewFrom_before rest _))
  rw [← List.map_snd_zip (Nat.le_of_eq lengths.symm)] at order
  exact List.pairwise_map.mp order

/-- The offset of a byte in the buffer says which weight and byte it is. -/
theorem zip_inj {w : List DenseInfo} {start : Nat} {m v m' v' : DenseInfo}
    (member : (m, v) ∈ w.zip (viewFrom w start)) (member' : (m', v') ∈ w.zip (viewFrom w start))
    {off off' x x' : Nat} (placed : v.arenaOff = some off) (placed' : v'.arenaOff = some off')
    (inside : x < v.bytes) (inside' : x' < v'.bytes) (same : off + x = off' + x') :
    (m, v) = (m', v') := by
  have apart := zip_before w start
  have meets : ∀ p ∈ w.zip (viewFrom w start), ∀ q ∈ w.zip (viewFrom w start),
      (∃ o o' y y', p.2.arenaOff = some o ∧ q.2.arenaOff = some o' ∧ y < p.2.bytes ∧
        y' < q.2.bytes ∧ o + y = o' + y') → p = q := by
    apply List.Pairwise.forall_of_forall_of_flip
    · exact fun p _ _ => rfl
    · apply apart.imp
      rintro p q before ⟨o, o', y, y', first, second, low, -, meet⟩
      have ends := before o o' first second
      omega
    · apply apart.imp
      rintro p q before ⟨o, o', y, y', first, second, -, low, meet⟩
      have ends := before o' o second first
      omega
  exact meets _ member _ member' ⟨off, off', x, x', placed, placed', inside, inside', same⟩

theorem mem_weightRead_arrives {m v : DenseInfo} (valid : m.valid = true) {off : Nat}
    (placed : v.arenaOff = some off) {cell : ArenaCell} {b : Byte} :
    (cell, b) ∈ d.weightRead il pread m v ↔
      ∃ x, (d.shards.opened m.fileIdx = true ∧ RangeArrives (pread m) d.threads m.bytes x) ∧
        cell = (il % d.nbuf, off + x) ∧ b = weightByte d.shards m x := by
  simp only [Arena.weightRead]
  rw [valid, placed]
  dsimp only
  split
  · rename_i opened
    simp only [mem_denseReadRange_arrives, opened, true_and]
  · rename_i closed
    apply iff_of_false List.not_mem_nil
    rintro ⟨x, brought, -⟩
    exact closed brought.1

theorem weightRead_unplaced {m v : DenseInfo} (unplaced : v.arenaOff = none) :
    d.weightRead il pread m v = [] := by
  simp only [Arena.weightRead]
  rw [unplaced]
  split
  · rename_i some
    cases some
  · rfl

/-- What the load writes is at the address of a byte that was brought. -/
theorem loaded_source {w : List DenseInfo} (perm : ∀ ws, (order ws).Perm ws) {cell : ArenaCell}
    {b : Byte} (written : (cell, b) ∈ order ((w.zip (viewFrom w 0)).flatMap fun (m, v) =>
      d.weightRead il pread m v)) :
    ∃ m v off x, (m, v) ∈ w.zip (viewFrom w 0) ∧ v.arenaOff = some off ∧
      (d.shards.opened m.fileIdx = true ∧ RangeArrives (pread m) d.threads m.bytes x) ∧
      cell = (il % d.nbuf, off + x) ∧ b = weightByte d.shards m x := by
  obtain ⟨⟨m, v⟩, zipped, read⟩ := List.mem_flatMap.mp ((perm _).mem_iff.mp written)
  dsimp only at read
  cases placed : v.arenaOff with
  | none =>
      rw [weightRead_unplaced placed] at read
      cases read
  | some off =>
      have valid := ((viewFrom_zip zipped).2.2 off placed).1
      obtain ⟨x, brought, place, value⟩ := (mem_weightRead_arrives valid placed).mp read
      exact ⟨m, v, off, x, zipped, placed, brought, place, value⟩

section Load

variable {w : List DenseInfo} (registered : d.weights il = some w)
  (found : d.view il = some (viewFrom w 0)) (absent : resident (il % d.nbuf) ≠ some il)
  (atMost : ∀ m, AtMost (pread m)) (perm : ∀ ws, (order ws).Perm ws)

include registered found absent

theorem loaded_eq : d.loaded il pread order resident mem =
    (Function.update resident (il % d.nbuf) (some il),
      applyWrites mem (order ((w.zip (viewFrom w 0)).flatMap fun (m, v) =>
        d.weightRead il pread m v))) := by
  have loads : d.denseLoadLayer il pread resident = some _ :=
    denseLoadLayer_eq_some.mpr ⟨absent, w, registered, found, rfl⟩
  rw [Arena.loaded, loads]
  rfl

include perm

theorem loaded_other {bi o : Nat} (other : bi ≠ il % d.nbuf) :
    (d.loaded il pread order resident mem).2 (bi, o) = mem (bi, o) := by
  rw [loaded_eq registered found absent]
  apply applyWrites_other
  intro b written
  obtain ⟨_, _, _, _, _, _, _, place, _⟩ :=
    loaded_source perm written
  exact other (Prod.mk.inj place).1

include atMost

theorem loaded_byte_iff {m v : DenseInfo} (zipped : (m, v) ∈ w.zip (viewFrom w 0)) {off x : Nat}
    (placed : v.arenaOff = some off) (inside : x < m.bytes) :
    (d.loaded il pread order resident mem).2 (il % d.nbuf, off + x) =
        weightByte d.shards m x ↔
      (d.shards.opened m.fileIdx = true ∧ RangeArrives (pread m) d.threads m.bytes x) ∨
        mem (il % d.nbuf, off + x) = weightByte d.shards m x := by
  obtain ⟨valid, own⟩ := (viewFrom_zip zipped).2.2 off placed
  have source : ∀ b, ((il % d.nbuf, off + x), b) ∈ order ((w.zip (viewFrom w 0)).flatMap
      fun (m, v) => d.weightRead il pread m v) →
      (d.shards.opened m.fileIdx = true ∧ RangeArrives (pread m) d.threads m.bytes x) ∧
        b = weightByte d.shards m x := by
    intro b written
    obtain ⟨m', v', off', x', zipped', placed', brought, place, value⟩ :=
      loaded_source perm written
    have own' := ((viewFrom_zip zipped').2.2 off' placed').2
    have offsets := (Prod.mk.inj place).2
    have inside' := brought.2.inside (atMost m')
    have same := zip_inj zipped zipped' placed placed' (by rw [own]; exact inside)
      (by rw [own']; exact inside') offsets
    cases same
    cases placed.symm.trans placed'
    rw [Nat.add_left_cancel offsets]
    exact ⟨brought, value⟩
  rw [loaded_eq registered found absent]
  dsimp only
  rw [applyWrites_agreed mem _ fun b written => (source b written).2]
  apply or_congr_left
  constructor
  · exact fun written => (source _ written).1
  · intro brought
    apply (perm _).mem_iff.mpr
    apply List.mem_flatMap.mpr
    exact ⟨(m, v), zipped, (mem_weightRead_arrives valid placed).mpr ⟨x, brought, rfl, rfl⟩⟩

end Load

/-- A load leaves no layer named that is not in place exactly if every byte it
read arrived or was in place before. -/
theorem loaded_recorded_iff (recorded : Recorded d resident mem)
    (atMost : ∀ m, AtMost (pread m)) (perm : ∀ ws, (order ws).Perm ws) :
    Recorded d (d.loaded il pread order resident mem).1
        (d.loaded il pread order resident mem).2 ↔
      LoadArrives d il pread resident mem := by
  by_cases absent : resident (il % d.nbuf) ≠ some il
  · cases found : d.view il with
    | none =>
        have nothing : d.denseLoadLayer il pread resident = none :=
          denseLoadLayer_eq_none.mpr (Or.inr found)
        rw [Arena.loaded, nothing]
        refine ⟨fun _ _ w view _ other => ?_, fun _ => recorded⟩
        rw [found] at other
        cases other
    | some view =>
        obtain ⟨w, registered, rfl⟩ := view_some found
        have named : (d.loaded il pread order resident mem).1 =
            Function.update resident (il % d.nbuf) (some il) := by
          rw [loaded_eq registered found absent]
        constructor
        · intro after _ w' view' sameW sameView m v zipped off placed x inside
          cases registered.symm.trans sameW
          cases found.symm.trans sameView
          have own := ((viewFrom_zip zipped).2.2 off placed).2
          apply (loaded_byte_iff registered found absent atMost perm zipped placed inside).mp
          have held := after il _ found (by rw [named, Function.update_self]) v
            (viewFrom_zip zipped).1 off placed x (by rw [own]; exact inside)
          rw [held, own]
          rfl
        · intro arrives il' view' found' names v member off placed x inside
          by_cases same : il' = il
          · subst same
            cases found.symm.trans found'
            obtain ⟨m, zipped⟩ := viewFrom_source member
            have own := ((viewFrom_zip zipped).2.2 off placed).2
            have inside' : x < m.bytes := by
              rw [own] at inside
              exact inside
            have held := (loaded_byte_iff registered found absent atMost perm zipped placed
              inside').mpr (arrives absent w _ registered found m v zipped off placed x inside')
            rw [held, own]
            rfl
          · have apart : il' % d.nbuf ≠ il % d.nbuf := by
              intro buffer
              rw [named, buffer, Function.update_self] at names
              exact same (Option.some.inj names).symm
            rw [loaded_other registered found absent perm apart]
            apply recorded il' view' found' ?_ v member off placed x inside
            rw [named, Function.update_of_ne apart] at names
            exact names
  · have nothing : d.denseLoadLayer il pread resident = none :=
      denseLoadLayer_eq_none.mpr (Or.inl (not_not.mp absent))
    rw [Arena.loaded, nothing]
    exact ⟨fun _ some => absurd some absent, fun _ => recorded⟩

theorem pair_unread :
    Recorded pairArena (fun _ => none) (fun _ => 255) ∧
      ¬Recorded pairArena (pairArena.loaded 0 (fun _ _ _ => 0) id (fun _ => none) fun _ => 255).1
        (pairArena.loaded 0 (fun _ _ _ => 0) id (fun _ => none) fun _ => 255).2 := by
  have before : Recorded pairArena (fun _ => none) fun _ => 255 := by
    intro il view found named
    cases named
  have perm : ∀ ws : List (ArenaCell × Byte), (id ws).Perm ws := List.Perm.refl
  refine ⟨before, fun after => ?_⟩
  have arrives := (loaded_recorded_iff before (fun _ _ left => Int.natCast_nonneg left) perm).mp
    after
  have first := arrives (fun named => nomatch named) _ _ rfl rfl (pairWeight 0 .gate) _
    List.mem_cons_self 0 rfl 0 Nat.two_pos
  rcases first with ⟨-, beg, len, -, low, reached⟩ | same
  · rw [readLoop_ended] at reached
    omega
  · exact absurd same (by decide)

end Dense

/-! ## The three loads -/

variable {rt : Runtime} {nExpert : Nat} {io : Io} {call : Call}

/-- After each of the three loads what is recorded is in place exactly if every
byte of the load arrived or was in place before. -/
theorem recorded_iff_arrives (product : Product rt nExpert) (start : Memory)
    (pre : List (Io × Call)) (preFits : ∀ c ∈ pre, CallFits nExpert c.2)
    (callFits : CallFits nExpert call) (slabReads : ∀ job, AtMost (io.pread job))
    (slabRight : Recorded rt nExpert (remaps rt (State.start rt nExpert start) pre))
    {a : Prefill.Arena} {g : Prefill.Residency} {mem : ArenaCell → Byte} (il : Nat)
    (need : Option (Nat → Bool)) {pread : ReadJob → Nat → Nat → Int}
    (arenaReads : ∀ job, AtMost (pread job))
    {order : List (ArenaCell × Byte) → List (ArenaCell × Byte)}
    (perm : ∀ ws, (order ws).Perm ws) (arenaRight : Prefill.Recorded a g mem)
    {d : Dense.Arena} {resident : Nat → Option Nat} {denseMem : ArenaCell → Byte} (dil : Nat)
    {densePread : Dense.DenseInfo → Nat → Nat → Int} (denseReads : ∀ m, AtMost (densePread m))
    (denseRight : Dense.Recorded d resident denseMem) :
    (Recorded rt nExpert
        (remap rt io (remaps rt (State.start rt nExpert start) pre) call).state ↔
      CallArrives rt io (remaps rt (State.start rt nExpert start) pre) call) ∧
    (Prefill.Recorded a (a.loaded il need pread order g mem).1
        (a.loaded il need pread order g mem).2 ↔
      Prefill.LoadArrives a il need pread g mem) ∧
    (Dense.Recorded d (d.loaded dil densePread order resident denseMem).1
        (d.loaded dil densePread order resident denseMem).2 ↔
      Dense.LoadArrives d dil densePread resident denseMem) := by
  refine ⟨?_, ?_, ?_⟩
  · have kept := (Kept.start product start).remaps product pre preFits
    exact remap_recorded_iff _ io call product kept slabRight callFits slabReads
  · exact Prefill.loaded_recorded_iff arenaRight arenaReads perm
  · exact Dense.loaded_recorded_iff denseRight denseReads perm

/-- On each path a load whose reads return nothing is recorded as present. -/
theorem ended_recorded :
    (Recorded pairRuntime 2 pairStart ∧
      ¬Recorded pairRuntime 2 (remap pairRuntime Io.ended pairStart pairCall).state) ∧
    (Prefill.Recorded Prefill.pairArena Prefill.Residency.empty (fun _ => 255) ∧
      ¬Prefill.Recorded Prefill.pairArena
        (Prefill.pairArena.loaded 0 none (fun _ _ _ => 0) id .empty fun _ => 255).1
        (Prefill.pairArena.loaded 0 none (fun _ _ _ => 0) id .empty fun _ => 255).2) ∧
    (Dense.Recorded Dense.pairArena (fun _ => none) (fun _ => 255) ∧
      ¬Dense.Recorded Dense.pairArena
        (Dense.pairArena.loaded 0 (fun _ _ _ => 0) id (fun _ => none) fun _ => 255).1
        (Dense.pairArena.loaded 0 (fun _ _ _ => 0) id (fun _ => none) fun _ => 255).2) :=
  ⟨⟨pairStart_recorded, pair_unread⟩, Prefill.pair_unread, Dense.pair_unread⟩

theorem recorded_iff_arrives_ended :
    (Recorded pairRuntime 2 (remap pairRuntime Io.ended pairStart pairCall).state ↔
      CallArrives pairRuntime Io.ended pairStart pairCall) ∧
    (Prefill.Recorded Prefill.pairArena
        (Prefill.pairArena.loaded 0 none (fun _ _ _ => 0) id .empty fun _ => 255).1
        (Prefill.pairArena.loaded 0 none (fun _ _ _ => 0) id .empty fun _ => 255).2 ↔
      Prefill.LoadArrives Prefill.pairArena 0 none (fun _ _ _ => 0) .empty fun _ => 255) ∧
    (Dense.Recorded Dense.pairArena
        (Dense.pairArena.loaded 0 (fun _ _ _ => 0) id (fun _ => none) fun _ => 255).1
        (Dense.pairArena.loaded 0 (fun _ _ _ => 0) id (fun _ => none) fun _ => 255).2 ↔
      Dense.LoadArrives Dense.pairArena 0 (fun _ _ _ => 0) (fun _ => none) fun _ => 255) := by
  have slabReads : ∀ job, AtMost (Io.ended.pread job) := fun _ _ left => Int.natCast_nonneg left
  have perm : ∀ ws : List (ArenaCell × Byte), (id ws).Perm ws := List.Perm.refl
  exact recorded_iff_arrives pairRuntime_product (fun _ => 255) [] (by simp) pairCall_fits slabReads
    pairStart_recorded 0 none (fun _ _ left => Int.natCast_nonneg left) perm Prefill.pair_unread.1 0
    (fun _ _ left => Int.natCast_nonneg left) Dense.pair_unread.1

end MoeStream
