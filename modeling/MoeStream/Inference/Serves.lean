import MoeStream.Arena.Inside
import MoeStream.Inference.Fits

/-!
# The streamed model serves the resident one

While a layer is at work, every byte that was read for a position is the byte of
its expert, or a zero where another pass owns the expert.  The contributions of
the passes then add up to those of the resident layer.
-/

set_option autoImplicit false

namespace MoeStream.Inference

open Foundation Foundation.FixedWidth

variable {B X Y : Type}

/-! ## Bytes read one by one -/

theorem mem_looksOf {L : LayerSlabs} {len n : Nat} {role : Role} {i : Nat} :
    (n, role, i) ∈ looksOf L len ↔ n < len ∧ i < (L.role role).expertBytes := by
  simp only [looksOf, List.mem_flatMap, List.mem_map, List.mem_range, Prod.mk.injEq]
  constructor
  · rintro ⟨n', inside, role', -, i', width, rfl, rfl, rfl⟩
    exact ⟨inside, width⟩
  · rintro ⟨inside, width⟩
    exact ⟨n, inside, role, Role.mem_all role, i, width, rfl, rfl, rfl⟩

theorem sound_matrices {L : LayerSlabs} {len : Nat} {want : Look → Byte} {seen : Look → Byte}
    (sound : Gather.Sound (looksOf L len) want ⟨[], seen⟩) {n : Nat} (inside : n < len)
    (role : Role) : Looks.matrices L ⟨[], seen⟩ n role =
      (List.range (L.role role).expertBytes).map fun i => want (n, role, i) := by
  apply List.map_congr_left
  intro i width
  exact sound.done (mem_looksOf.mpr ⟨inside, List.mem_range.mp width⟩)

/-! ## Sums of which one term counts -/

/-- The sum of the passes up to `p`, from the first. -/
def passSum [Add Y] (c : Nat → Y) : Nat → Y
  | 0 => c 0
  | p + 1 => passSum c p + c (p + 1)

theorem passSum_zero [AddZeroClass Y] {c : Nat → Y} {p : Nat} (none : ∀ q, q ≤ p → c q = 0) :
    passSum c p = 0 := by
  induction p with
  | zero => exact none 0 (Nat.le_refl 0)
  | succ p ih =>
      rw [passSum, ih fun q bound => none q (by omega), none (p + 1) (Nat.le_refl _), add_zero]

theorem passSum_one [AddZeroClass Y] {c : Nat → Y} {p own : Nat} (bound : own ≤ p)
    (others : ∀ q, q ≤ p → q ≠ own → c q = 0) : passSum c p = c own := by
  induction p with
  | zero => rw [Nat.le_zero.mp bound, passSum]
  | succ p ih =>
      rw [passSum]
      by_cases last : own = p + 1
      · subst last
        rw [passSum_zero fun q small => others q (by omega) (by omega), zero_add]
      · rw [ih (by omega) fun q small => others q (by omega),
          others (p + 1) (Nat.le_refl _) (Ne.symm last), add_zero]

/-- `ms_acc` before pass `p`, when pass `q` contributes `c q n` at position `n`. -/
def partials [Add Y] (len : Nat) (c : Nat → Nat → Y) : Nat → Option (List Y)
  | 0 => none
  | p + 1 => some ((List.range len).map fun n => passSum (fun q => c q n) p)

theorem accumulate_partials [Add Y] (len : Nat) (c : Nat → Nat → Y) (p : Nat) :
    accumulate (partials len c p) ((List.range len).map (c p)) =
      (List.range len).map fun n => passSum (fun q => c q n) p := by
  cases p with
  | zero => rfl
  | succ p =>
      simp only [accumulate, partials, Option.elim_some, List.zipWith_map, List.zipWith_self,
        passSum]

/-! ## The layer at work -/

variable [AddZeroClass Y] (net : Network B X Y) (sys : System)

/-- The id at position `n`. -/
def idAt (ids : Ids) (n : Nat) : Nat := (ids.list.getD n 0).toNat

/-- What position `n` is to be multiplied by: its expert. -/
def wantExpert (L : LayerSlabs) (ids : Ids) : Look → Byte
  | (n, role, i) => sys.rt.shards.expert (L.role role) (idAt ids n) i

/-- What position `n` is to be multiplied by in a pass: its expert or zeros. -/
def wantPass (L : LayerSlabs) (ids : Ids) (pass : Nat) : Look → Byte
  | (n, role, i) =>
      if idAt ids n ∈ sys.rt.owned L ids (sys.passes ids) pass then
        sys.rt.shards.expert (L.role role) (idAt ids n) i
      else 0

/-- What position `n` contributes in a pass. -/
def passed (il : Nat) (x : X) (L : LayerSlabs) (ids : Ids) (pass n : Nat) : Y :=
  if idAt ids n ∈ sys.rt.owned L ids (sys.passes ids) pass then
    net.ffn il x n (sys.weights il (idAt ids n))
  else 0

structure Current (m : Machine B X Y) (il : Nat) (L : LayerSlabs) (ids : Ids) : Prop where
  next : ∃ todo, m.todo = il :: todo
  member : il ∈ net.layers
  ids : ids = net.selected il m.x
  found : sys.rt.remapped il = some L

def OpOk (m : Machine B X Y) : Op Y → Prop
  | .ready => m.arena.phase = .idle
  | .loading ids => ∃ il L, Current net sys m il L ids ∧ sys.arena.layers il = some L ∧
      m.arena.phase.call = some ⟨il, ids⟩
  | .arena ids looks => ∃ il L, Current net sys m il L ids ∧ sys.arena.layers il = some L ∧
      m.arena.phase = .computing ⟨il, ids⟩ ∧
      Gather.Sound (looksOf L ids.list.length) (wantExpert sys L ids) looks
  | .pass ids pass acc => m.arena.phase = .idle ∧ ∃ il L, Current net sys m il L ids ∧
      sys.prefills il ids.ne1 = false ∧ pass < sys.passes ids ∧
      acc = partials ids.list.length (passed net sys il m.x L ids) pass
  | .slab ids pass acc out looks => m.arena.phase = .idle ∧ ∃ il L, Current net sys m il L ids ∧
      sys.prefills il ids.ne1 = false ∧ pass < sys.passes ids ∧
      acc = partials ids.list.length (passed net sys il m.x L ids) pass ∧
      (∀ look ∈ looksOf L ids.list.length,
        slabLook il L m.slab out look = wantPass sys L ids pass look) ∧
      Gather.Sound (looksOf L ids.list.length) (wantPass sys L ids pass) looks

structure Good (m : Machine B X Y) : Prop where
  slab : Steady sys.rt sys.sizing.nExpert m.slab
  arena : Prefill.Sound sys.arena m.arena
  todo : ∀ il ∈ m.todo, il ∈ net.layers
  op : OpOk net sys m m.op

variable {net sys} {reads : Reads} {il : Nat} {L : LayerSlabs} {ids : Ids} {m : Machine B X Y}
  {x : X}

omit [AddZeroClass Y] in
theorem weights_eq (layer : sys.rt.layers il = some L) (e : Nat) :
    sys.weights il e = fun role =>
      (List.range (L.role role).expertBytes).map (sys.rt.shards.expert (L.role role) e) := by
  funext role
  simp only [System.weights, layer, Option.elim_some]

omit [AddZeroClass Y] in
/-- A multiplication over the arena contributes what the resident one does. -/
theorem contributions_arena (layer : sys.rt.layers il = some L) {seen : Look → Byte}
    (sound : Gather.Sound (looksOf L ids.list.length) (wantExpert sys L ids) ⟨[], seen⟩) :
    net.contributions il x ids.list (fun n _ => Looks.matrices L ⟨[], seen⟩ n) =
      net.contributions il x ids.list fun _ e => sys.weights il e := by
  apply List.map_congr_left
  intro n listed
  have inside := List.mem_range.mp listed
  dsimp only
  rw [weights_eq layer]
  congr 1
  funext role
  exact sound_matrices sound inside role

section Fitting

variable (fit : Fit net sys reads)

include fit

/-- Where a pass does not own an expert there are several, and the null expert
contributes nothing. -/
theorem Fit.null_pass (layer : sys.rt.layers il = some L) {pass e : Nat}
    (inside : pass < sys.passes ids) (member : e ∈ named L.gate.nExpert ids.list)
    (foreign : e ∉ sys.rt.owned L ids (sys.passes ids) pass) (n : Nat) :
    net.ffn il x n (fun role => List.replicate (L.role role).expertBytes 0) = 0 := by
  apply fit.null ?_ il L layer
  cases forced : sys.force with
  | some => rfl
  | none =>
      have once : sys.passes ids = 1 := by simp [System.passes, forced, Sizing.nPasses]
      exact absurd (owned_only fit.unset (by omega) inside member) foreign

theorem Fit.named (layer : sys.rt.layers il = some L) {n : Nat}
    (inside : n < (net.selected il x).list.length) :
    idAt (net.selected il x) n ∈ named L.gate.nExpert (net.selected il x).list ∧
      idAt (net.selected il x) n < sys.sizing.nExpert := by
  have experts := fit.product.same il L layer
  have listed : (net.selected il x).list.getD n 0 ∈ (net.selected il x).list := by
    rw [List.getD_eq_getElem?_getD, List.getElem?_eq_getElem inside]
    exact List.getElem_mem inside
  obtain ⟨low, high⟩ := (fit.router il x).inRange listed
  refine ⟨mem_named low (by omega) listed, ?_⟩
  simp only [idAt]
  omega

/-- A multiplication over the slab contributes what the pass owns. -/
theorem contributions_slab (layer : sys.rt.layers il = some L)
    (same : ids = net.selected il x) {pass : Nat} (inside : pass < sys.passes ids)
    {seen : Look → Byte}
    (sound : Gather.Sound (looksOf L ids.list.length) (wantPass sys L ids pass) ⟨[], seen⟩) :
    net.contributions il x ids.list (fun n _ => Looks.matrices L ⟨[], seen⟩ n) =
      (List.range ids.list.length).map (passed net sys il x L ids pass) := by
  apply List.map_congr_left
  intro n listed
  have bound := List.mem_range.mp listed
  have read : Looks.matrices L ⟨[], seen⟩ n = fun role =>
      (List.range (L.role role).expertBytes).map fun i => wantPass sys L ids pass (n, role, i) := by
    funext role
    exact sound_matrices sound bound role
  dsimp only
  rw [read]
  by_cases owns : idAt ids n ∈ sys.rt.owned L ids (sys.passes ids) pass
  · simp only [wantPass, passed, owns, if_true]
    rw [weights_eq layer]
  · simp only [wantPass, passed, owns, if_false, List.map_const', List.length_range]
    rw [same] at bound owns inside
    exact fit.null_pass layer inside (fit.named layer bound).1 owns n

theorem passes_add (layer : sys.rt.layers il = some L) (same : ids = net.selected il x)
    {pass : Nat} (inside : pass < sys.passes ids) (last : ¬pass + 1 < sys.passes ids) :
    accumulate (partials ids.list.length (passed net sys il x L ids) pass)
        ((List.range ids.list.length).map (passed net sys il x L ids pass)) =
      net.contributions il x ids.list fun _ e => sys.weights il e := by
  rw [accumulate_partials]
  apply List.map_congr_left
  intro n listed
  have bound := List.mem_range.mp listed
  have positive : 0 < sys.passes ids := by omega
  have member : idAt ids n ∈ named L.gate.nExpert ids.list := by
    rw [same] at bound ⊢
    exact (fit.named layer bound).1
  obtain ⟨own, small, mine⟩ := (exists_owned fit.unset positive).mp member
  have upTo : own ≤ pass := by omega
  rw [passSum_one upTo]
  · exact if_pos mine
  · intro q _ different
    apply if_neg
    intro other
    exact Finset.disjoint_left.mp (owned_disjoint fit.unset different) other mine

end Fitting

end MoeStream.Inference
