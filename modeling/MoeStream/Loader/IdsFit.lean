import MoeStream.Loader.Program
import MoeStream.Slab.Exhaustion

/-!
# Ids and the tensors they index

A slab is allocated for a tensor, the remap is decided for its layer.  A call
writes slots when the layer is ready and MoEStream is still enabled, and raw
expert ids otherwise; raw ids fit a slab only when it has as many slots as the
model has experts.
-/

set_option autoImplicit false

namespace MoeStream

open Foundation
open Foundation.FixedWidth

/-! ## Layers with a slab -/

namespace Program

variable {p : Program} {il : Int} {role : Role} {t : ExpertTensor} {L : LayerSlabs}

theorem registered (p : Program) : Registered p.sizing p.tensors p.layers :=
  createTensors_registered p.sizing p.tensors

theorem find_slab (member : t ∈ p.tensors) (slab : SlabFor p.sizing il role t) :
    ∃ L, p.layers.find il = some L := by
  have known := (p.registered.roles il role).mpr ⟨t, member, slab⟩
  cases found : p.layers.find il with
  | some L => exact ⟨L, rfl⟩
  | none =>
      simp only [OrderedMap.get, found, Option.getD_none] at known
      cases role <;> cases known

/-- The first layer has a gate, or a slab of another role and is not ready. -/
theorem first_layer (some : p.layers ≠ []) (lacking : p.layers.firstGate.registered = false) :
    ∃ il role, ∃ t ∈ p.tensors, SlabFor p.sizing il role t ∧ (p.layers.get il).ready = false := by
  cases first : p.layers with
  | nil => exact absurd first some
  | cons entry rest =>
      obtain ⟨il, L⟩ := entry
      have found : p.layers.find il = Option.some L := by
        rw [first]
        exact OrderedMap.find_head
      obtain ⟨role, known⟩ := p.registered.present il L found
      rw [← OrderedMap.get_of_find found] at known
      obtain ⟨t, member, slab⟩ := (p.registered.roles il role).mp known
      refine ⟨il, role, t, member, slab, ?_⟩
      rw [← first, OrderedMap.get_of_find found]
      apply Bool.eq_false_iff.mpr
      intro ready
      rw [← OrderedMap.get_of_find found] at ready
      have gate := (p.registered.ready il).mp ready .gate
      rw [OrderedMap.get_of_find found] at gate
      rw [first] at lacking
      exact absurd gate (Bool.eq_false_iff.mp lacking)

theorem role_experts (loadable : p.Loadable)
    (known : ((p.layers.get il).role role).registered = true) :
    ((p.layers.get il).role role).nExpert = p.sizing.nExpert := by
  obtain ⟨t, member, slab, same⟩ := p.registered.experts il role known
  rw [same]
  exact loadable.uniform t member slab.1

theorem nExpert_eq (loadable : p.Loadable) (gate : p.layers.firstGate.registered = true) :
    p.nExpert = p.sizing.nExpert := by
  cases first : p.layers with
  | nil =>
      rw [first] at gate
      cases gate
  | cons entry rest =>
      obtain ⟨il, L⟩ := entry
      have found : p.layers.find il = some L := by
        rw [first]
        exact OrderedMap.find_head
      have known : ((p.layers.get il).role .gate).registered = true := by
        rw [OrderedMap.get_of_find found]
        rwa [first] at gate
      have experts := role_experts loadable known
      rw [OrderedMap.get_of_find found] at experts
      simp only [nExpert]
      rw [first]
      exact experts

theorem allocated_slab (loadable : p.Loadable) (member : t ∈ p.tensors)
    (slab : SlabFor p.sizing il role t) : allocated p.sizing t = p.sizing.slots + 1 := by
  have experts := loadable.uniform t member slab.1
  simp only [allocated]
  rw [if_pos slab.1]
  have positive : 0 < slabSlots p.sizing t := (of_decide_eq_true slab.1).1
  simp only [slabSlots] at positive ⊢
  rw [slab.2] at positive ⊢
  dsimp only at positive ⊢
  rw [experts] at positive ⊢
  split at positive
  · cases positive
  · rename_i many
    rw [if_neg many]

/-! ## Which layers are remapped -/

theorem remapped_ready {n : Nat} (found : p.runtime.remapped n = some L) :
    p.layers.find n = some L ∧ L.ready = true := by
  have layer : p.layers.find n = some L := remapped_layer found
  have decided : p.runtime.layers n = some L := layer
  refine ⟨layer, ?_⟩
  simp only [Runtime.remapped] at found
  rw [decided] at found
  split at found
  · cases found
  · dsimp only at found
    split at found
    · assumption
    · cases found

theorem remapped_of_ready {n : Nat} (noop : p.noop ≠ 1) (found : p.layers.find n = some L)
    (ready : L.ready = true) : p.runtime.remapped n = some L := by
  have decided : p.runtime.layers n = some L := found
  obtain ⟨l, last, bound⟩ := p.registered.sorted.le_last (OrderedMap.find_mem found)
  have inside : n < p.runtime.nCache := by
    simp only [runtime, last, Option.getD_some]
    omega
  simp only [Runtime.remapped]
  rw [decided, if_neg]
  · dsimp only
    rw [if_pos ready]
  · rintro (off | debug | outside)
    · exact off rfl
    · exact noop debug
    · omega

theorem remapped_unready {n : Nat} (unready : (p.layers.get n).ready = false) :
    p.runtime.remapped n = none := by
  cases remapped : p.runtime.remapped n with
  | none => rfl
  | some L =>
      obtain ⟨found, ready⟩ := remapped_ready remapped
      rw [OrderedMap.get_of_find found, ready] at unready
      cases unready

/-! ## One call -/

inductive Answer (p : Program) (io : Io) (s : Session) (call : Call) : Session → List Int → Prop
    where
  | off (why : s.enabled = false ∨ p.noop = 1) : Answer p io s call s call.ids.list
  | raw {s₀ : Session} (on : s.enabled = true ∧ p.noop ≠ 1)
      (opened : (if s.finalized then some s else p.finalize s) = some s₀)
      (why : s₀.finalized = false ∨ p.runtime.remapped call.il = none) :
      Answer p io s call s₀ call.ids.list
  | slots {s₀ : Session} {L : LayerSlabs} (on : s.enabled = true ∧ p.noop ≠ 1)
      (opened : (if s.finalized then some s else p.finalize s) = some s₀)
      (found : p.runtime.remapped call.il = some L)
      (zero : s₀.slab.zeroFilled = true ∨ p.layers.firstGate.registered = true) :
      Answer p io s call { s₀ with slab := (remap p.runtime io s₀.slab call).state }
        (remap p.runtime io s₀.slab call).out

theorem msRemap_answer {io : Io} {s s' : Session} {call : Call} {out : List Int}
    (answered : p.msRemap io s call = some (s', out)) : Answer p io s call s' out := by
  simp only [msRemap] at answered
  split at answered
  · rename_i off
    cases answered
    exact Answer.off off
  · rename_i on
    obtain ⟨enabled, noop⟩ := not_or.mp on
    have on : s.enabled = true ∧ p.noop ≠ 1 := ⟨Bool.not_eq_false _ ▸ enabled, noop⟩
    obtain ⟨s₀, opened, answered⟩ := Option.bind_eq_some_iff.mp answered
    split at answered
    · rename_i bare
      cases answered
      exact Answer.raw on opened (Or.inl bare)
    · split at answered
      · cases answered
      · rename_i zero
        cases answered
        cases found : p.runtime.remapped call.il with
        | none =>
            have result : Answer p io s call s₀ call.ids.list :=
              Answer.raw on opened (Or.inr found)
            simp only [remap, found]
            exact result
        | some L =>
            apply Answer.slots on opened found
            rw [found] at zero
            cases filled : s₀.slab.zeroFilled with
            | true => exact Or.inl rfl
            | false =>
                right
                by_contra lacking
                exact zero ⟨rfl, filled, Bool.eq_false_iff.mpr lacking⟩

/-! ## A run -/

theorem finalize_slab {s s' : Session} (finalized : p.finalize s = some s') : s'.slab = s.slab := by
  simp only [finalize] at finalized
  split at finalized
  · cases finalized
    rfl
  · split at finalized
    · cases finalized
      rfl
    · split at finalized
      · cases finalized
        rfl
      · cases finalized

theorem opened_slab {s s₀ : Session}
    (opened : (if s.finalized then some s else p.finalize s) = some s₀) : s₀.slab = s.slab := by
  split at opened
  · cases opened
    rfl
  · exact finalize_slab opened

theorem run_keeps {P : Session → Prop}
    (keeps : ∀ io s call s' out, P s → Answer p io s call s' out → P s') {mem : Memory}
    (start : P (p.start mem)) {calls : List (Io × Call)} {s : Session}
    (ran : p.run mem calls = some s) : P s := by
  have general : ∀ (calls : List (Io × Call)) (s₀ s : Session), P s₀ →
      calls.foldlM (fun s c => (p.msRemap c.1 s c.2).map Prod.fst) s₀ = some s → P s := by
    intro calls
    induction calls with
    | nil =>
        intro s₀ s holds ran
        cases ran
        exact holds
    | cons first rest ih =>
        intro s₀ s holds ran
        rw [List.foldlM_cons] at ran
        obtain ⟨s₁, one, ran⟩ := Option.bind_eq_some_iff.mp ran
        obtain ⟨⟨s₁', out⟩, answered, same⟩ := Option.map_eq_some_iff.mp one
        cases same
        exact ih _ s (keeps _ _ _ _ _ holds (msRemap_answer answered)) ran
  exact general calls _ s start ran

/-- The state of the slabs; nothing is remapped before the gate of the first
layer was needed. -/
structure Sound (p : Program) (s : Session) : Prop where
  standing : p.layers.firstGate.registered = true → Standing p.runtime p.nExpert s.slab
  zero : s.slab.zeroFilled = true → p.layers.firstGate.registered = true

theorem Sound.start (loadable : p.Loadable) (mem : Memory) : Sound p (p.start mem) := by
  have narrow := loadable.narrow
  constructor
  · intro gate
    have experts := nExpert_eq loadable gate
    apply Standing.start
    · exact ⟨p.sizing.slots_pos, Sizing.slots_lt (by omega)⟩
    · omega
  · intro filled
    cases filled

def Raw (p : Program) (s : Session) (call : Call) : Prop :=
  s.enabled = false ∨ p.noop = 1 ∨
    ∃ s₀, (if s.finalized then some s else p.finalize s) = some s₀ ∧
      (s₀.finalized = false ∨ p.runtime.remapped call.il = none)

theorem Sound.answer {io : Io} {s s' : Session} {call : Call} {out : List Int}
    (sound : Sound p s) (loadable : p.Loadable) (answered : Answer p io s call s' out) :
    Sound p s' ∧
      (Raw p s call ∧ out = call.ids.list ∨ ∀ v ∈ out, SlotId p.runtime v) := by
  cases answered with
  | off why =>
      refine ⟨sound, Or.inl ⟨?_, rfl⟩⟩
      exact why.imp_right Or.inl
  | raw on opened why =>
      have slab := opened_slab opened
      refine ⟨⟨?_, ?_⟩, Or.inl ⟨Or.inr (Or.inr ⟨_, opened, why⟩), rfl⟩⟩
      · rw [slab]
        exact sound.standing
      · rw [slab]
        exact sound.zero
  | @slots s₀ L on opened found zero =>
      have slab := opened_slab opened
      have gate : p.layers.firstGate.registered = true := by
        rcases zero with filled | gate
        · rw [slab] at filled
          exact sound.zero filled
        · exact gate
      have experts : L.gate.nExpert = p.nExpert := by
        obtain ⟨layer, ready⟩ := remapped_ready found
        rw [← OrderedMap.get_of_find layer] at ready
        have own := role_experts loadable ((p.registered.ready _).mp ready .gate)
        rw [OrderedMap.get_of_find layer] at own
        exact own.trans (nExpert_eq loadable gate).symm
      have standing := sound.standing gate
      rw [← slab] at standing
      obtain ⟨out, after⟩ := remap_slots io standing rfl experts found
      exact ⟨⟨fun _ => after, fun _ => gate⟩, Or.inr out⟩

def Live (p : Program) (s : Session) : Prop :=
  s.enabled = true ∧ (s.finalized = true → p.arenaReads = true)

theorem finalize_live (some : p.layers ≠ []) (usable : p.usable = true) {s s' : Session}
    (finalized : p.finalize s = Option.some s') :
    s' = { s with finalized := true } ∧ p.arenaReads = true := by
  simp only [finalize] at finalized
  rw [if_neg some, if_neg (by rw [usable]; decide)] at finalized
  split at finalized
  · rename_i reads
    cases finalized
    exact ⟨rfl, reads⟩
  · cases finalized

theorem opened_live (some : p.layers ≠ []) (usable : p.usable = true) {s s₀ : Session}
    (live : Live p s)
    (opened : (if s.finalized then Option.some s else p.finalize s) = Option.some s₀) :
    Live p s₀ ∧ s₀.finalized = true := by
  split at opened
  · rename_i done
    cases opened
    exact ⟨live, done⟩
  · obtain ⟨same, reads⟩ := finalize_live some usable opened
    rw [same]
    exact ⟨⟨live.1, fun _ => reads⟩, rfl⟩

theorem Live.answer {io : Io} {s s' : Session} {call : Call} {out : List Int}
    (some : p.layers ≠ []) (usable : p.usable = true) (live : Live p s)
    (answered : Answer p io s call s' out) : Live p s' := by
  cases answered with
  | off why => exact live
  | raw on opened why => exact (opened_live some usable live opened).1
  | slots on opened found zero => exact (opened_live some usable live opened).1

/-! ## When ids fit -/

/-- Every id a call writes is below the size of every slab of its layer. -/
def IdsFit (p : Program) : Prop :=
  ∀ (mem : Memory) (calls : List (Io × Call)) (s : Session), (∀ c ∈ calls, p.InRange c.2) →
    p.run mem calls = some s → ∀ (io : Io) (call : Call) (s' : Session) (out : List Int),
      p.InRange call → p.msRemap io s call = some (s', out) → ∀ t ∈ p.tensors, ∀ role,
        SlabFor p.sizing call.il role t → ∀ id ∈ out, 0 ≤ id ∧ id < allocated p.sizing t

def Complete (p : Program) : Prop :=
  ∀ t ∈ p.tensors, ∀ il role, SlabFor p.sizing il role t →
    ∀ role', ∃ t' ∈ p.tensors, SlabFor p.sizing il role' t'

/-- Nothing was shrunk, or raw ids fit as well, or no raw id is written: the
remap is not switched off, `finalize` keeps MoEStream enabled, and either every
layer becomes ready or `finalize` does not return. -/
def Fits (p : Program) : Prop :=
  (∀ t ∈ p.tensors, reduced p.sizing t = false) ∨ p.sizing.nExpert ≤ p.sizing.slots + 1 ∨
    p.noop ≠ 1 ∧ p.usable = true ∧ (p.Complete ∨ p.arenaReads = false)

theorem slotId_fits (loadable : p.Loadable) {v : Int} (slot : SlotId p.runtime v) :
    0 ≤ v ∧ v < (p.sizing.slots + 1 : Nat) := by
  obtain ⟨slot, small, same⟩ := slot
  have narrow := loadable.narrow
  have bound : slot ≤ p.sizing.slots := small
  have slots : p.sizing.slots < 2 ^ 31 := by
    simp only [Sizing.slots]
    omega
  rw [same, i32_eq (by omega)]
  omega

theorem Live.not_raw {s : Session} {call : Call} (live : Live p s) (noop : p.noop ≠ 1)
    (usable : p.usable = true) (served : p.Complete ∨ p.arenaReads = false)
    (member : t ∈ p.tensors) (slab : SlabFor p.sizing call.il role t) : ¬Raw p s call := by
  obtain ⟨L, found⟩ := find_slab member slab
  have some : p.layers ≠ [] := by
    intro none
    rw [none] at found
    cases found
  rintro (off | off | ⟨s₀, opened, why⟩)
  · rw [live.1] at off
    cases off
  · exact noop off
  · obtain ⟨after, finalized⟩ := opened_live some usable live opened
    rcases why with bare | raw
    · rw [finalized] at bare
      cases bare
    · have complete : p.Complete := by
        rcases served with complete | aborts
        · exact complete
        · rw [after.2 finalized] at aborts
          cases aborts
      have ready : (p.layers.get call.il).ready = true :=
        (p.registered.ready _).mpr fun role' =>
          (p.registered.roles _ role').mpr (complete t member _ role slab role')
      rw [OrderedMap.get_of_find found] at ready
      rw [remapped_of_ready noop found ready] at raw
      cases raw

theorem Fits.idsFit (fits : p.Fits) (loadable : p.Loadable) : p.IdsFit := by
  intro mem calls s _ ran io call s' out inRange answered t member role slab id listed
  have sound : Sound p s :=
    run_keeps (fun _ _ _ _ _ sound answer => (sound.answer loadable answer).1)
      (Sound.start loadable mem) ran
  have answer := msRemap_answer answered
  rw [allocated_slab loadable member slab]
  rcases (sound.answer loadable answer).2 with ⟨raw, same⟩ | slots
  · rw [same] at listed
    obtain ⟨low, high⟩ := inRange id listed
    rcases fits with whole | wide | ⟨noop, usable, served⟩
    · exact absurd slab.1 (Bool.eq_false_iff.mp (whole t member))
    · omega
    · have some : p.layers ≠ [] := by
        obtain ⟨L, found⟩ := find_slab member slab
        intro none
        rw [none] at found
        cases found
      have live : Live p s :=
        run_keeps (fun _ _ _ _ _ live answer => live.answer some usable answer)
          ⟨rfl, nofun⟩ ran
      exact absurd raw (live.not_raw noop usable served member slab)
  · exact slotId_fits loadable (slots id listed)

/-! ## When ids do not fit -/

def oneCall (il id : Nat) : Call := ⟨il, 0, 1, packIds 1 1 fun _ => id⟩

/-- Reads that come back whole, in the order in which they were asked for. -/
theorem oneCall_ids {il id : Nat} (small : id < 2 ^ 31) :
    (oneCall il id).ids.list = [(id : Int)] := by
  simp only [oneCall]
  rw [packIds_list fun _ => small]
  rfl

theorem msRemap_raw (io : Io) {s : Session} {call : Call} (raw : Raw p s call) :
    ∃ s', p.msRemap io s call = some (s', call.ids.list) := by
  simp only [msRemap]
  by_cases off : s.enabled = false ∨ p.noop = 1
  · rw [if_pos off]
    exact ⟨s, rfl⟩
  · rw [if_neg off]
    obtain ⟨enabled, noop⟩ := not_or.mp off
    rcases raw with disabled | debug | ⟨s₀, opened, why⟩
    · exact absurd disabled enabled
    · exact absurd debug noop
    · rw [opened, Option.bind_some]
      rcases why with bare | none
      · rw [if_pos bare]
        exact ⟨s₀, rfl⟩
      · simp only [remap, none, Option.isSome_none, Bool.false_eq_true, false_and, if_false]
        split <;> exact ⟨_, rfl⟩

theorem Raw.overruns (loadable : p.Loadable) (beyond : p.sizing.slots + 1 < p.sizing.nExpert)
    (mem : Memory) (calls : List (Io × Call)) {s : Session} (inRange : ∀ c ∈ calls, p.InRange c.2)
    (ran : p.run mem calls = some s) {n : Nat} (member : t ∈ p.tensors)
    (slab : SlabFor p.sizing n role t) (raw : Raw p s (oneCall n (p.sizing.nExpert - 1))) :
    ¬p.IdsFit := by
  intro fit
  have ids : (oneCall n (p.sizing.nExpert - 1)).ids.list = [((p.sizing.nExpert - 1 : Nat) : Int)] :=
    oneCall_ids ((Nat.sub_le _ _).trans_lt loadable.narrow)
  obtain ⟨s', answered⟩ := msRemap_raw Io.whole raw
  have own : p.InRange (oneCall n (p.sizing.nExpert - 1)) := by
    intro id listed
    rw [ids] at listed
    rw [List.mem_singleton.mp listed]
    omega
  have fits := fit mem calls s inRange ran Io.whole _ s' _ own answered t member role slab
    ((p.sizing.nExpert - 1 : Nat) : Int) (by rw [ids]; exact List.mem_singleton.mpr rfl)
  rw [allocated_slab loadable member slab] at fits
  omega

theorem start_raw {mem : Memory} {s₀ : Session} (returns : p.finalize (p.start mem) = some s₀)
    {n id : Nat} (unready : (p.layers.get n).ready = false) :
    Raw p (p.start mem) (oneCall n id) :=
  Or.inr (Or.inr ⟨s₀, returns, Or.inr (remapped_unready unready)⟩)

/-- After a failed `finalize` the first call still remaps and leaves MoEStream
disabled. -/
theorem failed_first (noop : p.noop ≠ 1) (some : p.layers ≠ []) (unusable : p.usable = false)
    (gate : p.layers.firstGate.registered = true) (mem : Memory) (call : Call) :
    ∃ s, p.run mem [(Io.whole, call)] = Option.some s ∧ s.enabled = false := by
  have on : ¬((p.start mem).enabled = false ∨ p.noop = 1) := by
    rintro (off | off)
    · cases off
    · exact noop off
  have finalized : (if (p.start mem).finalized then Option.some (p.start mem)
      else p.finalize (p.start mem)) =
        Option.some { p.start mem with enabled := false, finalized := true } := by
    simp only [finalize]
    rw [if_neg some, if_pos unusable]
    rfl
  simp only [run, List.foldlM_cons, List.foldlM_nil, msRemap]
  rw [if_neg on, finalized]
  simp [gate]

theorem slab_of_reduced (whole : reduced p.sizing t = true) :
    ∃ il role, SlabFor p.sizing il role t := by
  cases parsed : parseName t.name with
  | none =>
      simp only [reduced, slabSlots, parsed, decide_eq_true_eq] at whole
      exact absurd whole.1 (Nat.lt_irrefl 0)
  | some place => exact ⟨place.1, place.2, whole, parsed⟩

theorem IdsFit.fits (fit : p.IdsFit) (loadable : p.Loadable) : p.Fits := by
  by_contra unfit
  simp only [Fits, not_or, not_and, not_forall, Bool.not_eq_false] at unfit
  obtain ⟨⟨t, member, whole⟩, narrow, refused⟩ := unfit
  have beyond : p.sizing.slots + 1 < p.sizing.nExpert := Nat.lt_of_not_le narrow
  obtain ⟨il, role, slab⟩ := slab_of_reduced whole
  obtain ⟨L, found⟩ := find_slab member slab
  have some : p.layers ≠ [] := by
    intro none
    rw [none] at found
    cases found
  have mem : Memory := fun _ => 0
  have none : ∀ c ∈ ([] : List (Io × Call)), p.InRange c.2 := nofun
  -- a layer that is not ready fails at once, unless `finalize` does not return
  have unready : ∀ t ∈ p.tensors, ∀ il role, SlabFor p.sizing il role t →
      (p.layers.get il).ready = false → p.finalize (p.start mem) = Option.none := by
    intro t member il role slab unready
    obtain ⟨n, rfl⟩ := Int.eq_ofNat_of_zero_le (loadable.numbered t member il role slab.2).1
    cases returns : p.finalize (p.start mem) with
    | none => rfl
    | some s₀ =>
        exact absurd fit (Raw.overruns loadable beyond mem [] none rfl member slab
          (start_raw returns unready))
  have noop : p.noop ≠ 1 := by
    intro debug
    obtain ⟨n, rfl⟩ := Int.eq_ofNat_of_zero_le (loadable.numbered t member il role slab.2).1
    exact absurd fit (Raw.overruns loadable beyond mem [] none rfl member slab
      (Or.inr (Or.inl debug)))
  cases usable : p.usable with
  | true =>
      obtain ⟨missing, reads⟩ := refused noop usable
      simp only [Complete, not_forall] at missing
      obtain ⟨t', member', il', role', slab', lacking, absent⟩ := missing
      have returns := unready t' member' il' role' slab' (by
        apply Bool.eq_false_iff.mpr
        intro ready
        exact absent ((p.registered.roles _ lacking).mp ((p.registered.ready _).mp ready lacking)))
      simp [finalize, some, usable, reads] at returns
  | false =>
      have returns : p.finalize (p.start mem) ≠ Option.none := by
        simp [finalize, some, usable]
      cases gate : p.layers.firstGate.registered with
      | false =>
          obtain ⟨il', role', t', member', slab', notReady⟩ := first_layer some gate
          exact returns (unready t' member' il' role' slab' notReady)
      | true =>
          obtain ⟨n, rfl⟩ := Int.eq_ofNat_of_zero_le (loadable.numbered t member il role slab.2).1
          have positive : 0 < p.sizing.nExpert := by omega
          obtain ⟨s, ran, off⟩ := failed_first noop some usable gate mem (oneCall n 0)
          refine absurd fit (Raw.overruns loadable beyond mem _ ?_ ran member slab (Or.inl off))
          intro c listed id named
          rw [List.mem_singleton.mp listed, oneCall_ids (by decide)] at named
          rw [List.mem_singleton.mp named]
          exact ⟨Int.le_refl _, by exact_mod_cast positive⟩

/-- Ids fit the slabs they index exactly for these programs. -/
theorem ids_fit_iff (loadable : p.Loadable) : p.IdsFit ↔ p.Fits :=
  ⟨fun fit => fit.fits loadable, fun fits => fits.idsFit loadable⟩

end Program

/-! A model of one layer with 128 experts and 83 slots, its gate and up tensors
apart or fused into one. -/

def coderTensor (name : String) (offs : Nat) : ExpertTensor := ⟨name.toList, 3, 128, offs, 128, 0⟩

def coderDown : ExpertTensor := coderTensor "blk.0.ffn_down_exps.weight" 256

def coderProgram (tensors : List ExpertTensor) : Program where
  sizing := coderSizing
  tensors := tensors
  files := [⟨true, some 384⟩]
  denseReady := false
  arena := none
  noop := 0
  dropFrom := 2 ^ 30
  sweepTest := 0
  byte := fun _ off => UInt8.ofNat off
  hostPtr := fun _ _ _ => true

def fusedProgram : Program :=
  coderProgram [coderTensor "blk.0.ffn_gate_up_exps.weight" 0, coderDown]

def splitProgram : Program :=
  coderProgram [coderTensor "blk.0.ffn_gate_exps.weight" 0,
    coderTensor "blk.0.ffn_up_exps.weight" 128, coderDown]

theorem coderDown_slab : SlabFor coderSizing 0 .down coderDown := by
  constructor <;> decide +kernel

theorem coderProgram_loadable {tensors : List ExpertTensor} (experts : ∀ t ∈ tensors, t.ne2 = 128)
    (first : ∀ t ∈ tensors, ((parseName t.name).map Prod.fst).getD 0 = 0) :
    (coderProgram tensors).Loadable where
  uniform := fun t member _ => experts t member
  numbered := by
    intro t member il role parsed
    have zero := first t member
    rw [parsed] at zero
    have same : il = 0 := zero
    rw [same]
    decide
  narrow := by
    have experts : (coderProgram tensors).sizing.nExpert = 128 := rfl
    rw [experts]
    decide

/-- The fused tensor is no slab, so the layer is never ready, and expert 127 is
looked up in the 84 slots of the down tensor. -/
theorem fused_overruns : fusedProgram.Loadable ∧ ¬fusedProgram.IdsFit := by
  have loadable : fusedProgram.Loadable := by
    apply coderProgram_loadable
    · decide
    · decide
  have member : coderDown ∈ fusedProgram.tensors := List.mem_cons_of_mem _ List.mem_cons_self
  have beyond : fusedProgram.sizing.slots + 1 < fusedProgram.sizing.nExpert := by decide +kernel
  have unready : (fusedProgram.layers.get (0 : Nat)).ready = false := by decide +kernel
  have returns : ∃ s₀, fusedProgram.finalize (fusedProgram.start fun _ => 0) = some s₀ := by
    have reads : fusedProgram.arenaReads = true := rfl
    simp only [Program.finalize]
    rw [reads, if_pos rfl]
    split
    · exact ⟨_, rfl⟩
    · split <;> exact ⟨_, rfl⟩
  obtain ⟨s₀, returns⟩ := returns
  refine ⟨loadable, ?_⟩
  apply Program.Raw.overruns loadable beyond (fun _ => 0) [] nofun rfl member coderDown_slab
  exact Program.start_raw returns unready

/-- With separate tensors every id fits. -/
theorem split_fits : splitProgram.IdsFit := by
  have loadable : splitProgram.Loadable := by
    apply coderProgram_loadable
    · decide
    · decide
  apply (Program.ids_fit_iff loadable).mpr
  right
  right
  refine ⟨by decide, by decide +kernel, Or.inl ?_⟩
  intro t member il role slab role'
  have first : il = 0 := by
    have zero : ∀ t ∈ splitProgram.tensors, ((parseName t.name).map Prod.fst).getD 0 = 0 := by
      decide
    have own := zero t member
    rw [slab.2] at own
    exact own
  rw [first]
  cases role' with
  | gate => exact ⟨_, List.mem_cons_self, by constructor <;> decide +kernel⟩
  | up => exact ⟨_, List.mem_cons_of_mem _ List.mem_cons_self, by constructor <;> decide +kernel⟩
  | down =>
      exact ⟨coderDown, List.mem_cons_of_mem _ (List.mem_cons_of_mem _ List.mem_cons_self),
        coderDown_slab⟩

end MoeStream
