import Mathlib.Algebra.Order.BigOperators.Group.List
import Mathlib.Data.List.Nodup
import MoeStream.Loader.DenseClaim

/-!
# Stubs and the weights that replace them

Weights are claimed one by one, and replaced by layers that have both an up and
a down weight in the arena.  Every stub is replaced exactly when each layer with
a claimed weight has both and the arena was set up.
-/

set_option autoImplicit false

namespace MoeStream.Dense

open Foundation

variable {z : Setting} {d : Claims} {ts : List DenseTensor} {t : DenseTensor} {s : Loaded}

/-! ## The split -/

/-- A tensor at which `dense_claim` gets as far as the split. -/
def Setting.candidate (z : Setting) (t : DenseTensor) : Bool :=
  decide (z.enabled = true ∧ t.dims = 2) && (parseDenseAny t.name t.nbytes).isSome

def Setting.streams (z : Setting) (d : Claims) (t : DenseTensor) : Option (Int × Role) :=
  if z.candidate t then
    (parseDenseAny t.name t.nbytes).filter fun place =>
      decide (0 ≤ d.nlayer ∧ 0 ≤ d.first ∧ d.first ≤ place.1)
  else none

def Setting.split (z : Setting) (ts : List DenseTensor) : Claims :=
  match ts.find? z.candidate with
  | none => {}
  | some t => z.decideSplit t.nbytes {}

def Model.streams (m : Model) (t : DenseTensor) : Option (Int × Role) :=
  m.setting.streams (m.setting.split m.tensors) t

theorem decideSplit_done {n : Nat} {c : Claims} (done : c.nlayer ≠ 0) : z.decideSplit n c = c :=
  if_pos done

theorem decideSplit_start {n : Nat} {c : Claims} (nlayer : c.nlayer = 0) (first : c.first = -1) :
    z.decideSplit n c =
      { c with
        nlayer := (z.decideSplit n {}).nlayer
        first := (z.decideSplit n {}).first } := by
  simp only [Setting.decideSplit]
  rw [if_neg (not_not.mpr nlayer), if_neg (by decide)]
  cases z.resolve n with
  | none =>
      dsimp only
      rw [← first]
  | some split => rfl

theorem decideSplit_ne (n : Nat) : (z.decideSplit n {}).nlayer ≠ 0 := by
  simp only [Setting.decideSplit]
  rw [if_neg (by decide)]
  cases resolved : z.resolve n with
  | none => decide
  | some split =>
      dsimp only
      simp only [Setting.resolve] at resolved
      generalize (if z.auto = true then z.autoFrac n else z.frac) = frac at resolved
      split at resolved
      · cases resolved
      · rename_i on
        split at resolved
        · cases resolved
        · cases resolved
          dsimp only
          omega

/-! ## What is claimed -/

/-- What `register_dense` records for a layer. -/
def Setting.infoAt (z : Setting) (d : Claims) (il : Int) (t : DenseTensor) : Option DenseInfo :=
  (z.streams d t).bind fun place => if place.1 = il then some (t.info place.2) else none

/-- The loader after the tensors `ts`, when `d` is the split it decided or will
decide. -/
structure Follows (z : Setting) (d : Claims) (ts : List DenseTensor) (s : Loaded) : Prop where
  split : if ts.find? z.candidate = none then s.claims.nlayer = 0 ∧ s.claims.first = -1
    else s.claims.nlayer = d.nlayer ∧ s.claims.first = d.first
  claimed : s.claims.claimed = (ts.filter fun t => (z.streams d t).isSome).map DenseTensor.name
  seen : s.claims.seen = ts.any fun t => (z.streams d t).isSome
  sorted : s.weights.Sorted
  weights : ∀ il, s.weights.get il = ts.filterMap (z.infoAt d il)
  present : ∀ il w, s.weights.find il = some w → w ≠ []

theorem Follows.decided (follows : Follows z d ts s) (candidate : z.candidate t = true)
    (decides : ∀ t₀, (ts ++ [t]).find? z.candidate = some t₀ → d = z.decideSplit t₀.nbytes {}) :
    z.decideSplit t.nbytes s.claims = { s.claims with nlayer := d.nlayer, first := d.first } := by
  have split := follows.split
  cases found : ts.find? z.candidate with
  | none =>
      rw [found, if_pos rfl] at split
      have now : d = z.decideSplit t.nbytes {} := by
        apply decides
        rw [List.find?_append, found, Option.none_or, List.find?_cons_of_pos candidate]
      rw [decideSplit_start split.1 split.2, now]
  | some t₀ =>
      rw [found, if_neg nofun] at split
      have before : d = z.decideSplit t₀.nbytes {} := by
        apply decides
        rw [List.find?_append, found, Option.some_or]
      have ne := decideSplit_ne (z := z) t₀.nbytes
      rw [← before] at ne
      rw [decideSplit_done (by rw [split.1]; exact ne), ← split.1, ← split.2]

theorem denseClaim_other {c : Claims} (other : z.candidate t = false) :
    z.denseClaim c t = (c, false) := by
  simp only [Setting.denseClaim]
  simp only [Setting.candidate, Bool.and_eq_false_iff, decide_eq_false_iff_not, not_and_or,
    Bool.not_eq_true] at other
  split
  · rfl
  · rename_i shape
    rcases other with wrong | unnamed
    · exact absurd wrong shape
    · cases parsed : parseDenseAny t.name t.nbytes with
      | none => rfl
      | some place =>
          rw [parsed] at unnamed
          cases unnamed

theorem denseClaim_candidate {c : Claims} (candidate : z.candidate t = true)
    (decided : z.decideSplit t.nbytes c = { c with nlayer := d.nlayer, first := d.first }) :
    z.denseClaim c t =
      match z.streams d t with
      | none => ({ c with nlayer := d.nlayer, first := d.first }, false)
      | some _ =>
          ({ c with
            nlayer := d.nlayer
            first := d.first
            seen := true
            claimed := c.claimed ++ [t.name] }, true) := by
  have shape := candidate
  simp only [Setting.candidate, Bool.and_eq_true, decide_eq_true_eq] at shape
  obtain ⟨⟨enabled, dims⟩, named⟩ := shape
  obtain ⟨place, named⟩ := Option.isSome_iff_exists.mp named
  have streams : z.streams d t =
      if 0 ≤ d.nlayer ∧ 0 ≤ d.first ∧ d.first ≤ place.1 then some place else none := by
    simp only [Setting.streams]
    rw [if_pos candidate, named]
    simp [Option.filter]
  simp only [Setting.denseClaim]
  rw [if_neg (by simp [enabled, dims]), named, streams]
  dsimp only
  rw [decided]
  dsimp only
  by_cases off : d.nlayer < 0
  · rw [if_pos off, if_neg (by omega)]
  · rw [if_neg off]
    by_cases streamed : 0 ≤ d.first ∧ d.first ≤ place.1
    · rw [if_pos streamed, if_pos ⟨by omega, streamed⟩]
    · rw [if_neg streamed, if_neg fun all => streamed all.2]

theorem streams_other (other : z.candidate t = false) : z.streams d t = none := by
  simp only [Setting.streams]
  rw [if_neg (by rw [other]; decide)]

theorem streams_place {place : Int × Role} (streams : z.streams d t = some place) :
    z.candidate t = true ∧ parseDenseAny t.name t.nbytes = some place := by
  simp only [Setting.streams] at streams
  split at streams
  · rename_i candidate
    exact ⟨candidate, (Option.filter_eq_some_iff.mp streams).1⟩
  · cases streams

theorem createDense_other (other : z.candidate t = false) : createDense z s t = s := by
  simp only [createDense]
  rw [denseClaim_other other]
  rfl

theorem createDense_kept (candidate : z.candidate t = true)
    (decided : z.decideSplit t.nbytes s.claims =
      { s.claims with nlayer := d.nlayer, first := d.first })
    (kept : z.streams d t = none) :
    createDense z s t = ⟨{ s.claims with nlayer := d.nlayer, first := d.first }, s.weights⟩ := by
  simp only [createDense]
  rw [denseClaim_candidate candidate decided, kept]
  rfl

theorem createDense_streamed {place : Int × Role}
    (decided : z.decideSplit t.nbytes s.claims =
      { s.claims with nlayer := d.nlayer, first := d.first })
    (streamed : z.streams d t = some place) :
    createDense z s t =
      ⟨{ s.claims with
          nlayer := d.nlayer
          first := d.first
          seen := true
          claimed := s.claims.claimed ++ [t.name] },
        s.weights.modify place.1 fun w => w ++ [t.info place.2]⟩ := by
  obtain ⟨candidate, parsed⟩ := streams_place streamed
  simp only [createDense]
  rw [denseClaim_candidate candidate decided, streamed]
  simp only [registerDense, parsed, if_true]

theorem find?_concat_none {p : DenseTensor → Bool} (found : (ts ++ [t]).find? p = none) :
    ts.find? p = none ∧ p t = false := by
  rw [List.find?_append, Option.or_eq_none_iff] at found
  refine ⟨found.1, ?_⟩
  have last := List.find?_eq_none.mp found.2 t List.mem_cons_self
  exact Bool.eq_false_iff.mpr last

theorem find?_concat_some (ts : List DenseTensor) {p : DenseTensor → Bool}
    (candidate : p t = true) :
    (ts ++ [t]).find? p ≠ none := by
  intro found
  rw [(find?_concat_none found).2] at candidate
  cases candidate

theorem Follows.create (follows : Follows z d ts s)
    (decides : ∀ t₀, (ts ++ [t]).find? z.candidate = some t₀ → d = z.decideSplit t₀.nbytes {}) :
    Follows z d (ts ++ [t]) (createDense z s t) := by
  have infos : ∀ il, (ts ++ [t]).filterMap (z.infoAt d il) =
      s.weights.get il ++ (z.infoAt d il t).toList := by
    intro il
    rw [List.filterMap_append, ← follows.weights]
    cases found : z.infoAt d il t <;> simp [found]
  cases candidate : z.candidate t with
  | false =>
      have none := streams_other (d := d) candidate
      rw [createDense_other candidate]
      refine ⟨?_, ?_, ?_, follows.sorted, ?_, follows.present⟩
      · have same : (ts ++ [t]).find? z.candidate = ts.find? z.candidate := by
          rw [List.find?_append, List.find?_cons_of_neg (by rw [candidate]; decide),
            List.find?_nil, Option.or_none]
        rw [same]
        exact follows.split
      · rw [List.filter_append, List.filter_cons_of_neg (by rw [none]; decide), List.filter_nil,
          List.append_nil]
        exact follows.claimed
      · rw [List.any_append, List.any_cons, none, follows.seen]
        simp
      · intro il
        rw [infos, Setting.infoAt, none]
        simp
  | true =>
      have decided := follows.decided candidate decides
      have met := find?_concat_some ts candidate
      cases streams : z.streams d t with
      | none =>
          rw [createDense_kept candidate decided streams]
          refine ⟨?_, ?_, ?_, follows.sorted, ?_, follows.present⟩
          · rw [if_neg met]
            exact ⟨rfl, rfl⟩
          · rw [List.filter_append, List.filter_cons_of_neg (by rw [streams]; decide),
              List.filter_nil, List.append_nil]
            exact follows.claimed
          · rw [List.any_append, List.any_cons, streams]
            simp [follows.seen]
          · intro il
            rw [infos, Setting.infoAt, streams]
            simp
      | some place =>
          rw [createDense_streamed decided streams]
          refine ⟨?_, ?_, ?_, follows.sorted.modify, ?_, ?_⟩
          · rw [if_neg met]
            exact ⟨rfl, rfl⟩
          · rw [List.filter_append, List.filter_cons_of_pos (by rw [streams]; rfl),
              List.filter_nil, List.map_append, ← follows.claimed]
            rfl
          · rw [List.any_append, List.any_cons, streams]
            simp
          · intro il
            rw [OrderedMap.get_modify follows.sorted, infos, Setting.infoAt, streams,
              Option.bind_some]
            by_cases own : il = place.1
            · subst own
              simp
            · rw [if_neg own, if_neg (Ne.symm own)]
              simp
          · intro il w found
            rw [OrderedMap.find_modify follows.sorted] at found
            split at found
            · cases found
              simp
            · exact follows.present il w found

theorem loaded_follows (z : Setting) (d : Claims) (ts : List DenseTensor)
    (decides : ∀ t₀, ts.find? z.candidate = some t₀ → d = z.decideSplit t₀.nbytes {}) :
    Follows z d ts (ts.foldl (createDense z) {}) := by
  induction ts using List.reverseRecOn with
  | nil => exact ⟨⟨rfl, rfl⟩, rfl, rfl, List.Pairwise.nil, fun _ => rfl, nofun⟩
  | append_singleton ts t ih =>
      rw [List.foldl_append]
      refine Follows.create (ih ?_) decides
      intro t₀ found
      apply decides
      rw [List.find?_append, found, Option.some_or]

theorem Model.follows (m : Model) :
    Follows m.setting (m.setting.split m.tensors) m.tensors m.loaded := by
  apply loaded_follows
  intro t₀ found
  simp only [Setting.split]
  rw [found]

/-! ## The arena tensors of a layer -/

theorem viewFrom_find? {p : DenseInfo → Bool}
    (blind : ∀ (m : DenseInfo) o, p { m with arenaOff := o } = p m) {w : List DenseInfo}
    (valid : ∀ m ∈ w, m.valid = true) (off : Nat) :
    ∃ o, (viewFrom w off).find? p = (w.find? p).map fun m => { m with arenaOff := some o } := by
  induction w generalizing off with
  | nil => exact ⟨0, rfl⟩
  | cons m rest ih =>
      simp only [viewFrom]
      rw [if_pos (valid m List.mem_cons_self)]
      cases chosen : p m with
      | true =>
          refine ⟨off, ?_⟩
          rw [List.find?_cons_of_pos (by rw [blind]; exact chosen), List.find?_cons_of_pos chosen]
          rfl
      | false =>
          have skipped : ¬p m = true := Bool.eq_false_iff.mp chosen
          rw [List.find?_cons_of_neg (by rw [blind]; exact skipped), List.find?_cons_of_neg skipped]
          exact ih (fun m' member => valid m' (List.mem_cons_of_mem m member)) _

variable {m : Model} {dev : Device} {il : Nat} {role : Role}

theorem mem_infos {k : Int} {v : DenseInfo} :
    v ∈ m.tensors.filterMap (m.setting.infoAt (m.setting.split m.tensors) k) ↔
      ∃ t ∈ m.tensors, ∃ role, m.streams t = some (k, role) ∧ v = t.info role := by
  rw [List.mem_filterMap]
  constructor
  · rintro ⟨t, member, made⟩
    obtain ⟨⟨k', role⟩, streams, made⟩ := Option.bind_eq_some_iff.mp made
    dsimp only at made
    split at made
    · rename_i own
      cases own
      cases made
      exact ⟨t, member, role, streams, rfl⟩
    · cases made
  · rintro ⟨t, member, role, streams, rfl⟩
    refine ⟨t, member, ?_⟩
    simp only [Setting.infoAt]
    rw [show m.setting.streams (m.setting.split m.tensors) t = some (k, role) from streams]
    simp

theorem weights_find (m : Model) (k : Int) :
    m.loaded.weights.find k =
      if m.tensors.filterMap (m.setting.infoAt (m.setting.split m.tensors) k) = [] then none
      else some (m.tensors.filterMap (m.setting.infoAt (m.setting.split m.tensors) k)) := by
  have get := m.follows.weights k
  cases found : m.loaded.weights.find k with
  | none =>
      simp only [OrderedMap.get] at get
      rw [found] at get
      rw [← get]
      rfl
  | some w =>
      rw [OrderedMap.get_of_find found] at get
      rw [← get, if_neg (m.follows.present k w found)]

theorem denseFfn_eq (m : Model) (dev : Device) (il : Nat) (role : Role) :
    ∃ o, (m.arena dev).denseFfn il role =
      ((m.tensors.filterMap (m.setting.infoAt (m.setting.split m.tensors) il)).find?
        fun v => v.valid && v.role == some role).map fun v => { v with arenaOff := some o } := by
  have weights : (m.arena dev).weights il = m.loaded.weights.find il := rfl
  simp only [Arena.denseFfn, Arena.view]
  rw [weights, weights_find]
  split
  · rename_i none
    rw [none]
    exact ⟨0, rfl⟩
  · rename_i some
    rw [Option.bind_some, if_neg some, Option.bind_some]
    apply viewFrom_find?
    · exact fun _ _ => rfl
    · intro v member
      obtain ⟨t, _, role', _, rfl⟩ := mem_infos.mp member
      rfl

theorem streams_min {t : DenseTensor} {place : Int × Role} (streams : m.streams t = some place) :
    parseDenseAny t.name dnMinBytes = some place ∧ dnMinBytes ≤ t.nbytes :=
  parseDenseAny_iff.mp (streams_place streams).2

theorem denseFfn_streamed (dev : Device) (loadable : m.Loadable) (member : t ∈ m.tensors)
    (streams : m.streams t = some ((il : Int), role)) :
    ∃ o, (m.arena dev).denseFfn il role = some { t.info role with arenaOff := some o } := by
  obtain ⟨o, found⟩ := denseFfn_eq m dev il role
  refine ⟨o, ?_⟩
  rw [found]
  cases chosen : (m.tensors.filterMap
      (m.setting.infoAt (m.setting.split m.tensors) (il : Int))).find?
        fun v => v.valid && v.role == some role with
  | none =>
      have skipped := List.find?_eq_none.mp chosen (t.info role)
        (mem_infos.mpr ⟨t, member, role, streams, rfl⟩)
      simp [DenseTensor.info] at skipped
  | some v =>
      obtain ⟨t', member', role', streams', rfl⟩ := mem_infos.mp (List.mem_of_find?_eq_some chosen)
      have own := List.find?_some chosen
      simp only [DenseTensor.info, Bool.true_and, beq_iff_eq, Option.some.injEq] at own
      subst own
      rw [loadable.single t' member' t member _ (streams_min streams').1 (streams_min streams).1]
      rfl

theorem denseFfn_none (none : ∀ t ∈ m.tensors, m.streams t ≠ some ((il : Int), role)) :
    (m.arena dev).denseFfn il role = Option.none := by
  obtain ⟨o, found⟩ := denseFfn_eq m dev il role
  rw [found, Option.map_eq_none_iff]
  apply List.find?_eq_none.mpr
  intro v listed test
  obtain ⟨t, member, role', streams, rfl⟩ := mem_infos.mp listed
  simp only [DenseTensor.info, Bool.true_and, beq_iff_eq, Option.some.injEq] at test
  subst test
  exact none t member streams

/-! ## The set-up -/

/-- Everything `finalize_dense` asks of the device. -/
structure Device.Works (dev : Device) (m : Model) : Prop where
  known : dev.files ≠ []
  opened : ∀ file ∈ dev.files, file = true
  vulkan : dev.vulkan = true
  buffers : ∀ i, i < m.setting.nbuf → dev.buffer i = true ∧ dev.mapped i = true
  context : dev.context = true
  tensors : ∀ q ∈ m.loaded.weights, ∀ r, r < q.2.length → dev.tensor q.1 r = true

@[simp] theorem denseEnsure_idle (m : Model) (dev : Device) :
    m.denseEnsure dev (m.denseEnsure dev {}) = m.denseEnsure dev {} := by
  by_cases needed : (({} : Setup).done = false ∧ m.setting.enabled = true ∧
      m.loaded.claims.seen = true)
  · have done : (m.denseEnsure dev {}).done = true := by
      unfold Model.denseEnsure
      rw [if_pos needed]
      rfl
    exact if_neg fun again => Bool.false_ne_true (again.1.symm.trans done)
  · have same : m.denseEnsure dev {} = {} := if_neg needed
    rw [same, same]

theorem setup_eq (m : Model) (dev : Device) (builds : Nat) :
    m.setup dev builds = m.denseEnsure dev {} := by
  simp only [Model.setup]
  rw [Function.iterate_succ_apply]
  exact Function.iterate_fixed (denseEnsure_idle m dev) builds

theorem bytesPer_pos (member : t ∈ m.tensors) {k : Int} (low : 0 ≤ k)
    (streams : m.streams t = some (k, role)) : 0 < (m.arena dev).bytesPer := by
  obtain ⟨il, rfl⟩ := Int.eq_ofNat_of_zero_le low
  have listed := mem_infos.mpr ⟨t, member, role, streams, rfl⟩
  have weights : (m.arena dev).weights il =
      some (m.tensors.filterMap (m.setting.infoAt (m.setting.split m.tensors) il)) := by
    have found := weights_find m il
    rw [if_neg (List.ne_nil_of_mem listed)] at found
    exact found
  have whole := weightBytes_le weights
  have own : t.nbytes ≤ weightBytes
      (m.tensors.filterMap (m.setting.infoAt (m.setting.split m.tensors) il)) :=
    List.single_le_sum (fun _ _ => Nat.zero_le _) _ (List.mem_map.mpr ⟨_, listed, rfl⟩)
  have large := (streams_min streams).2
  have positive : 0 < dnMinBytes := by decide
  omega

/-- With a streamed weight the set-up succeeds exactly on a device that works. -/
theorem ready_iff (loadable : m.Loadable) (member : t ∈ m.tensors) {place : Int × Role}
    (streams : m.streams t = some place) :
    (m.denseEnsure dev {}).ready = true ↔ dev.Works m := by
  have candidate := (streams_place streams).1
  have enabled : m.setting.enabled = true := by
    simp only [Setting.candidate, Bool.and_eq_true, decide_eq_true_eq] at candidate
    exact candidate.1.1
  have seen : m.loaded.claims.seen = true := by
    rw [m.follows.seen]
    apply List.any_eq_true.mpr
    exact ⟨t, member, by
      rw [show m.setting.streams (m.setting.split m.tensors) t = some place from streams]
      rfl⟩
  have low := loadable.numbered t member place.1 place.2 (streams_min streams).1
  have bytes : 0 < (m.arena dev).bytesPer := bytesPer_pos member low streams
  have recorded : m.loaded.weights ≠ [] := by
    intro empty
    have found := weights_find m place.1
    rw [if_neg (List.ne_nil_of_mem (mem_infos.mpr ⟨t, member, place.2, streams, rfl⟩)), empty]
      at found
    cases found
  have ensured : m.denseEnsure dev {} = m.finalizeDense dev {} := if_pos ⟨rfl, enabled, seen⟩
  rw [ensured]
  simp only [Model.finalizeDense, Bool.false_eq_true, if_false, Bool.and_eq_true, seen, bytes,
    decide_true, true_and, and_true, Bool.not_eq_true', List.isEmpty_eq_false_iff, List.all_eq_true,
    List.mem_range, id_eq]
  constructor
  · rintro ⟨⟨⟨⟨⟨⟨_, known⟩, opened⟩, vulkan⟩, buffers⟩, context⟩, tensors⟩
    exact ⟨known, opened, vulkan, buffers, context, tensors⟩
  · rintro ⟨known, opened, vulkan, buffers, context, tensors⟩
    exact ⟨⟨⟨⟨⟨⟨recorded, known⟩, opened⟩, vulkan⟩, buffers⟩, context⟩, tensors⟩

/-! ## The weights of a graph -/

theorem substitute_kept {a : Arena} {active : Bool} {f : Ffn}
    (kept : active = false ∨ a.denseFfn il .up = none ∨ a.denseFfn il .down = none) :
    a.substitute active il f = f := by
  simp only [Arena.substitute]
  split
  · rename_i on
    rcases kept with off | noUp | noDown
    · rw [off] at on
      cases on
    · rw [noUp]
    · rw [noDown]
      cases a.denseFfn il .up <;> rfl
  · rfl

/-- With both up and down in the arena every weight that is there is replaced. -/
theorem substitute_weight {a : Arena} {f : Ffn} {up down v : DenseInfo}
    (hasUp : a.denseFfn il .up = some up) (hasDown : a.denseFfn il .down = some down)
    (own : a.denseFfn il role = some v) (used : f.weight role ≠ none) :
    (a.substitute true il f).weight role = some (.arena v) := by
  unfold Arena.substitute
  rw [if_pos rfl, hasUp, hasDown]
  cases role with
  | gate =>
      cases gate : f.gate with
      | none => exact absurd gate used
      | some w =>
          simp only [Ffn.weight, own]
  | up =>
      cases hasUp.symm.trans own
      rfl
  | down =>
      cases hasDown.symm.trans own
      rfl

theorem weight_own {v : DenseInfo} : m.weight il role ≠ some (.arena v) := by
  intro same
  obtain ⟨t, _, made⟩ := Option.map_eq_some_iff.mp same
  split at made <;> cases made

theorem mem_claimed (loadable : m.Loadable) (member : t ∈ m.tensors) :
    t.name ∈ m.loaded.claims.claimed ↔ (m.streams t).isSome = true := by
  rw [m.follows.claimed, List.mem_map]
  constructor
  · rintro ⟨t', listed, same⟩
    obtain ⟨member', streams⟩ := List.mem_filter.mp listed
    rw [← List.inj_on_of_nodup_map loadable.names member' member same]
    exact streams
  · intro streams
    exact ⟨t, List.mem_filter.mpr ⟨member, streams⟩, rfl⟩

/-- Every stub is replaced by its full-shape arena tensor, in every graph. -/
def Model.Substituted (m : Model) (dev : Device) : Prop :=
  ∀ builds, ∀ t ∈ m.tensors, t.name ∈ m.loaded.claims.claimed → ∀ (il : Nat) (role : Role),
    parseDenseAny t.name t.nbytes = some ((il : Int), role) →
      ∃ o, (m.buildFfn dev (m.setup dev builds) il).weight role =
        some (.arena { t.info role with arenaOff := some o })

/-- No weight is streamed, or the set-up succeeds and each layer with a streamed
weight streams its up and its down weight. -/
def Model.Serves (m : Model) (dev : Device) : Prop :=
  (∀ t ∈ m.tensors, m.streams t = none) ∨
    dev.Works m ∧ ∀ t ∈ m.tensors, ∀ il role, m.streams t = some (il, role) →
      (∃ up ∈ m.tensors, m.streams up = some (il, .up)) ∧
        ∃ down ∈ m.tensors, m.streams down = some (il, .down)

theorem Model.Serves.substituted (serves : m.Serves dev) (loadable : m.Loadable) :
    m.Substituted dev := by
  intro builds t member claimed il role parsed
  obtain ⟨place, streams⟩ := Option.isSome_iff_exists.mp ((mem_claimed loadable member).mp claimed)
  have own : m.streams t = some ((il : Int), role) := by
    rw [streams, ← parsed, (streams_place streams).2]
  rcases serves with none | ⟨works, layers⟩
  · rw [none t member] at own
    cases own
  · obtain ⟨⟨up, upMember, upStreams⟩, ⟨down, downMember, downStreams⟩⟩ :=
      layers t member il role own
    obtain ⟨o, found⟩ := denseFfn_streamed dev loadable member own
    obtain ⟨_, hasUp⟩ := denseFfn_streamed dev loadable upMember upStreams
    obtain ⟨_, hasDown⟩ := denseFfn_streamed dev loadable downMember downStreams
    have active : (m.setting.enabled && (m.setup dev builds).ready) = true := by
      have candidate := (streams_place own).1
      simp only [Setting.candidate, Bool.and_eq_true, decide_eq_true_eq] at candidate
      rw [setup_eq, (ready_iff loadable member own).mpr works, candidate.1.1]
      rfl
    have used : m.weight il role ≠ Option.none := by
      intro absent
      have skipped := List.find?_eq_none.mp (Option.map_eq_none_iff.mp absent) t member
      simp [(streams_min own).1] at skipped
    refine ⟨o, ?_⟩
    simp only [Model.buildFfn]
    rw [active]
    apply substitute_weight hasUp hasDown found
    cases role <;> exact used

theorem Model.Substituted.serves (substituted : m.Substituted dev) (loadable : m.Loadable) :
    m.Serves dev := by
  by_cases none : ∀ t ∈ m.tensors, m.streams t = none
  · exact Or.inl none
  right
  -- a layer that keeps what the loader returned has no arena tensor
  have replaced : ∀ t ∈ m.tensors, ∀ il role, m.streams t = some (il, role) →
      ∃ n : Nat, il = n ∧ (m.setting.enabled && (m.denseEnsure dev {}).ready) = true ∧
        (m.arena dev).denseFfn n .up ≠ Option.none ∧
        (m.arena dev).denseFfn n .down ≠ Option.none := by
    intro t member il role streams
    obtain ⟨n, rfl⟩ :=
      Int.eq_ofNat_of_zero_le (loadable.numbered t member il role (streams_min streams).1)
    have claimed := (mem_claimed loadable member).mpr (by rw [streams]; rfl)
    obtain ⟨o, operand⟩ := substituted 0 t member claimed n role (streams_place streams).2
    rw [setup_eq] at operand
    refine ⟨n, rfl, ?_⟩
    by_contra kept
    have same : m.buildFfn dev (m.denseEnsure dev {}) n =
        ⟨m.weight n .gate, m.weight n .up, m.weight n .down⟩ := by
      apply substitute_kept
      by_contra all
      simp only [not_or, Bool.not_eq_false] at all
      exact kept all
    rw [same] at operand
    cases role <;> exact weight_own operand
  constructor
  · simp only [not_forall] at none
    obtain ⟨t, member, streamed⟩ := none
    obtain ⟨place, streams⟩ := Option.ne_none_iff_exists'.mp streamed
    obtain ⟨_, _, active, _⟩ := replaced t member place.1 place.2 streams
    rw [Bool.and_eq_true] at active
    exact (ready_iff loadable member streams).mp active.2
  · intro t member il role streams
    obtain ⟨n, rfl, _, hasUp, hasDown⟩ := replaced t member il role streams
    constructor
    · by_contra absent
      exact hasUp (denseFfn_none fun up upMember upStreams => absent ⟨up, upMember, upStreams⟩)
    · by_contra absent
      exact hasDown
        (denseFfn_none fun down downMember downStreams => absent ⟨down, downMember, downStreams⟩)

/-- Every claimed weight is replaced exactly in these models and on these
devices. -/
theorem substituted_iff (loadable : m.Loadable) : m.Substituted dev ↔ m.Serves dev :=
  ⟨fun substituted => substituted.serves loadable, fun serves => serves.substituted loadable⟩

/-! A layer of two weights of 4096 by 4096.  At 4.5 bits each is above the
threshold, at 3.4375 bits below it. -/

def weightOf (name : String) (type : Int) (blockBytes : Nat) : DenseTensor :=
  ⟨name.toList, 2, 4096 * 4096 / 256 * blockBytes, 0, 0, type, 4096, 4096⟩

def largeDown : DenseTensor := weightOf "blk.0.ffn_down.weight" 12 144

def mixedModel (type : Int) (blockBytes : Nat) : Model where
  setting :=
    { enabled := true, auto := false, frac := 0, nbuf := 2, threads := 4, nExpert := 0, nLayer := 1
      scanTotal := 0, fileGib := 0, deviceMem := none, reserve := 2, buffered := Nat.two_pos }
  tensors := [weightOf "blk.0.ffn_up.weight" type blockBytes, largeDown]

def umaDevice : Device :=
  ⟨[true], fun _ off => off.toUInt8, true, fun _ => true, fun _ => true, true, fun _ _ => true⟩

theorem umaDevice_works (m : Model) : umaDevice.Works m where
  known := by decide
  opened := by decide
  vulkan := rfl
  buffers := fun _ _ => ⟨rfl, rfl⟩
  context := rfl
  tensors := fun _ _ _ _ => rfl

theorem mixedModel_loadable (type : Int) (blockBytes : Nat) :
    (mixedModel type blockBytes).Loadable where
  names := by
    have names : (mixedModel type blockBytes).tensors.map DenseTensor.name =
      ["blk.0.ffn_up.weight".toList, "blk.0.ffn_down.weight".toList] := rfl
    rw [names]
    decide
  single := by
    have up : parseDenseAny "blk.0.ffn_up.weight".toList dnMinBytes = some (0, .up) := by decide
    have down : parseDenseAny "blk.0.ffn_down.weight".toList dnMinBytes = some (0, .down) := by
      decide
    intro t member t' member' place parsed parsed'
    simp only [mixedModel, largeDown, List.mem_cons, List.not_mem_nil, or_false] at member member'
    rcases member with rfl | rfl <;> rcases member' with rfl | rfl
    · rfl
    · cases (up.symm.trans parsed).trans (parsed'.symm.trans down)
    · cases (down.symm.trans parsed).trans (parsed'.symm.trans up)
    · rfl
  numbered := by
    have layers : ∀ name ∈ ["blk.0.ffn_up.weight".toList, "blk.0.ffn_down.weight".toList],
        (parseDenseAny name dnMinBytes).map Prod.fst = some 0 := by decide
    intro t member il role parsed
    have named : t.name ∈ ["blk.0.ffn_up.weight".toList, "blk.0.ffn_down.weight".toList] :=
      List.mem_map.mpr ⟨t, member, rfl⟩
    have zero := layers _ named
    rw [parsed] at zero
    cases zero
    exact Int.le_refl 0

/-- The up weight is below the threshold, so the layer keeps the one-row stub of
its down weight, on a device on which everything succeeds. -/
theorem mixed_stub : (mixedModel 11 110).Loadable ∧ umaDevice.Works (mixedModel 11 110) ∧
    ¬(mixedModel 11 110).Substituted umaDevice := by
  have loadable := mixedModel_loadable 11 110
  refine ⟨loadable, umaDevice_works _, ?_⟩
  intro substituted
  have down : (mixedModel 11 110).streams largeDown = some (0, .down) := by decide +kernel
  have up : ∀ t ∈ (mixedModel 11 110).tensors, (mixedModel 11 110).streams t ≠ some (0, .up) := by
    decide +kernel
  rcases substituted.serves loadable with none | ⟨_, layers⟩
  · have absent := none largeDown (List.mem_cons_of_mem _ List.mem_cons_self)
    rw [down] at absent
    cases absent
  · obtain ⟨⟨t, member, streams⟩, _⟩ :=
      layers largeDown (List.mem_cons_of_mem _ List.mem_cons_self) 0 .down down
    exact up t member streams

/-- At a size above the threshold both are replaced. -/
theorem mixed_replaced : (mixedModel 12 144).Substituted umaDevice := by
  apply (substituted_iff (mixedModel_loadable 12 144)).mpr
  have streams : (mixedModel 12 144).tensors.map (mixedModel 12 144).streams =
      [some (0, .up), some (0, .down)] := by decide +kernel
  have first : ∀ t ∈ (mixedModel 12 144).tensors, ∀ il role,
      (mixedModel 12 144).streams t = some (il, role) → il = 0 := by
    intro t member il role streamed
    have listed : some (il, role) ∈ (mixedModel 12 144).tensors.map (mixedModel 12 144).streams :=
      List.mem_map.mpr ⟨t, member, streamed⟩
    rw [streams] at listed
    simp only [List.mem_cons, List.not_mem_nil, or_false, Option.some.injEq,
      Prod.mk.injEq] at listed
    rcases listed with own | own <;> exact own.1
  have served : ∀ role,
      some ((0 : Int), role) ∈ (mixedModel 12 144).tensors.map (mixedModel 12 144).streams →
        ∃ t ∈ (mixedModel 12 144).tensors, (mixedModel 12 144).streams t = some (0, role) :=
    fun role listed => List.mem_map.mp listed
  right
  refine ⟨umaDevice_works _, ?_⟩
  intro t member il role streamed
  rw [first t member il role streamed]
  exact ⟨served .up (by rw [streams]; exact List.mem_cons_self),
    served .down (by rw [streams]; exact List.mem_cons_of_mem _ List.mem_cons_self)⟩

end MoeStream.Dense
