import MoeStream.Foundation.OrderedMap
import MoeStream.Loader.Names
import MoeStream.Slab.Sizing

/-!
# Registering the expert tensors

Embedding of the part of `create_tensor` that allocates a slab and of
`register_slab`: an expert tensor is created with one slot more than the cache
has, and its layer is ready once all three roles are known.
-/

set_option autoImplicit false

namespace MoeStream

open Foundation

instance : Inhabited LayerSlabs := ⟨{}⟩

/-- `g_layers`. -/
abbrev Layers := OrderedMap Int LayerSlabs

/-! ## Allocation -/

/-- An expert tensor as the loader presents it; its weight is always known. -/
structure ExpertTensor where
  name : List Char
  dims : Nat
  ne2 : Nat
  offs : Nat
  nbytes : Nat
  fileIdx : Nat

/-- `slab_slots`: how many slots to allocate, `0` for the tensor's own shape. -/
def slabSlots (z : Sizing) (t : ExpertTensor) : Nat :=
  match parseName t.name with
  | none => 0
  | some _ => if t.ne2 ≤ 1 then 0 else { z with nExpert := t.ne2 }.slots + 1

/-- `create_tensor` allocates a slab. -/
def reduced (z : Sizing) (t : ExpertTensor) : Bool := decide (0 < slabSlots z t ∧ t.dims = 3)

/-- `ne[2]` of the tensor that is created. -/
def allocated (z : Sizing) (t : ExpertTensor) : Nat :=
  if reduced z t then slabSlots z t else t.ne2

def LayerSlabs.setRole (L : LayerSlabs) (role : Role) (si : SlabInfo) : LayerSlabs :=
  match role with
  | .gate => { L with gate := si }
  | .up => { L with up := si }
  | .down => { L with down := si }

/-- The assignment of `register_slab`. -/
def LayerSlabs.assign (role : Role) (si : SlabInfo) (L : LayerSlabs) : LayerSlabs :=
  let L := L.setRole role si
  { L with ready := L.gate.registered && L.up.registered && L.down.registered }

def registerSlab (layers : Layers) (t : ExpertTensor) : Layers :=
  match parseName t.name with
  | none => layers
  | some (il, role) =>
      layers.modify il
        (LayerSlabs.assign role ⟨true, t.offs, t.nbytes / t.ne2, t.ne2, t.fileIdx⟩)

def createTensor (z : Sizing) (layers : Layers) (t : ExpertTensor) : Layers :=
  if reduced z t then registerSlab layers t else layers

def createTensors (z : Sizing) (ts : List ExpertTensor) : Layers := ts.foldl (createTensor z) []

/-! ## What is registered -/

/-- The tensor is a slab for this layer and role. -/
def SlabFor (z : Sizing) (il : Int) (role : Role) (t : ExpertTensor) : Prop :=
  reduced z t = true ∧ parseName t.name = some (il, role)

/-- The map holds exactly the roles of the slabs created, and a layer is ready
once it has all of them. -/
structure Registered (z : Sizing) (ts : List ExpertTensor) (layers : Layers) : Prop where
  sorted : layers.Sorted
  roles : ∀ il role, ((layers.get il).role role).registered = true ↔ ∃ t ∈ ts, SlabFor z il role t
  experts : ∀ il role, ((layers.get il).role role).registered = true →
    ∃ t ∈ ts, SlabFor z il role t ∧ ((layers.get il).role role).nExpert = t.ne2
  ready : ∀ il, (layers.get il).ready = true ↔
    ∀ role, ((layers.get il).role role).registered = true
  present : ∀ il L, layers.find il = some L → ∃ role, (L.role role).registered = true

@[simp] theorem LayerSlabs.assign_role {L : LayerSlabs} {role role' : Role} {si : SlabInfo} :
    (L.assign role si).role role' = if role' = role then si else L.role role' := by
  cases role <;> cases role' <;> rfl

theorem LayerSlabs.assign_ready {L : LayerSlabs} {role : Role} {si : SlabInfo} :
    (L.assign role si).ready = true ↔
      ∀ role', ((L.assign role si).role role').registered = true := by
  constructor
  · intro ready role'
    simp only [assign, Bool.and_eq_true] at ready
    cases role'
    · exact ready.1.1
    · exact ready.1.2
    · exact ready.2
  · intro all
    simp only [assign, Bool.and_eq_true]
    exact ⟨⟨all .gate, all .up⟩, all .down⟩

theorem Registered.start (z : Sizing) : Registered z [] [] := by
  refine ⟨List.Pairwise.nil, ?_, ?_, ?_, ?_⟩
  · intro il role
    cases role <;> simp [OrderedMap.get, OrderedMap.find, default, LayerSlabs.role]
  · intro il role registered
    cases role <;> simp [OrderedMap.get, OrderedMap.find, default, LayerSlabs.role] at registered
  · intro il
    constructor
    · intro ready
      cases ready
    · intro all
      have gate := all .gate
      cases gate
  · intro il L found
    cases found

/-- Creating a slab changes the one role of the one layer it is for. -/
theorem createTensor_slab {z : Sizing} {layers : Layers} {t : ExpertTensor}
    (sorted : layers.Sorted) (slab : reduced z t = true) :
    ∃ il role si, parseName t.name = some (il, role) ∧ si.registered = true ∧
      si.nExpert = t.ne2 ∧ (createTensor z layers t).Sorted ∧
      ∀ il', (createTensor z layers t).find il' =
        if il' = il then some ((layers.get il).assign role si) else layers.find il' := by
  simp only [createTensor, registerSlab]
  rw [if_pos slab]
  cases parsed : parseName t.name with
  | none =>
      simp only [reduced, slabSlots, parsed, decide_eq_true_eq] at slab
      exact absurd slab.1 (Nat.lt_irrefl 0)
  | some place =>
      obtain ⟨il, role⟩ := place
      exact ⟨il, role, ⟨true, t.offs, t.nbytes / t.ne2, t.ne2, t.fileIdx⟩, rfl, rfl, rfl,
        sorted.modify, fun _ => OrderedMap.find_modify sorted⟩

theorem Registered.create {z : Sizing} {ts : List ExpertTensor} {layers : Layers}
    (registered : Registered z ts layers) (t : ExpertTensor) :
    Registered z (ts ++ [t]) (createTensor z layers t) := by
  by_cases slab : reduced z t = true
  · obtain ⟨il₀, role₀, si, parsed, known, experts, sorted, find⟩ :=
      createTensor_slab registered.sorted slab
    have layer : ∀ il, (createTensor z layers t).get il =
        if il = il₀ then (layers.get il₀).assign role₀ si else layers.get il := by
      intro il
      simp only [OrderedMap.get]
      rw [find]
      split <;> rfl
    have role_eq : ∀ il role, ((createTensor z layers t).get il).role role =
        if il = il₀ ∧ role = role₀ then si else (layers.get il).role role := by
      intro il role
      rw [layer]
      by_cases own : il = il₀
      · subst own
        rw [if_pos rfl, LayerSlabs.assign_role]
        simp only [true_and]
      · rw [if_neg own, if_neg fun both => own both.1]
    refine ⟨sorted, ?_, ?_, ?_, ?_⟩
    · intro il role
      rw [role_eq]
      by_cases own : il = il₀ ∧ role = role₀
      · obtain ⟨rfl, rfl⟩ := own
        rw [if_pos ⟨rfl, rfl⟩]
        exact iff_of_true known ⟨t, List.mem_append_right _ (List.mem_singleton.mpr rfl), slab,
          parsed⟩
      · rw [if_neg own, registered.roles]
        constructor
        · rintro ⟨t', member, isSlab⟩
          exact ⟨t', List.mem_append_left _ member, isSlab⟩
        · rintro ⟨t', member, isSlab⟩
          rcases List.mem_append.mp member with old | new
          · exact ⟨t', old, isSlab⟩
          · rw [List.mem_singleton.mp new] at isSlab
            cases Option.some.inj (parsed.symm.trans isSlab.2)
            exact absurd ⟨rfl, rfl⟩ own
    · intro il role
      rw [role_eq]
      by_cases own : il = il₀ ∧ role = role₀
      · obtain ⟨rfl, rfl⟩ := own
        rw [if_pos ⟨rfl, rfl⟩]
        exact fun _ => ⟨t, List.mem_append_right _ (List.mem_singleton.mpr rfl), ⟨slab, parsed⟩,
          experts⟩
      · rw [if_neg own]
        intro old
        obtain ⟨t', member, facts⟩ := registered.experts il role old
        exact ⟨t', List.mem_append_left _ member, facts⟩
    · intro il
      rw [layer]
      by_cases own : il = il₀
      · subst own
        rw [if_pos rfl]
        exact LayerSlabs.assign_ready
      · rw [if_neg own]
        exact registered.ready il
    · intro il L found
      rw [find] at found
      by_cases own : il = il₀
      · subst own
        rw [if_pos rfl] at found
        rw [← Option.some.inj found]
        refine ⟨role₀, ?_⟩
        rw [LayerSlabs.assign_role, if_pos rfl]
        exact known
      · rw [if_neg own] at found
        exact registered.present il L found
  · have unchanged : createTensor z layers t = layers := if_neg slab
    have same : ∀ il role, (∃ t' ∈ ts ++ [t], SlabFor z il role t') ↔
        ∃ t' ∈ ts, SlabFor z il role t' := by
      intro il role
      constructor
      · rintro ⟨t', member, isSlab⟩
        rcases List.mem_append.mp member with old | new
        · exact ⟨t', old, isSlab⟩
        · rw [List.mem_singleton.mp new] at isSlab
          exact absurd isSlab.1 slab
      · rintro ⟨t', member, isSlab⟩
        exact ⟨t', List.mem_append_left _ member, isSlab⟩
    rw [unchanged]
    refine ⟨registered.sorted, ?_, ?_, registered.ready, registered.present⟩
    · intro il role
      rw [same]
      exact registered.roles il role
    · intro il role known
      obtain ⟨t', member, facts⟩ := registered.experts il role known
      exact ⟨t', List.mem_append_left _ member, facts⟩

theorem createTensors_registered (z : Sizing) (ts : List ExpertTensor) :
    Registered z ts (createTensors z ts) := by
  induction ts using List.reverseRecOn with
  | nil => exact Registered.start z
  | append_singleton ts t ih =>
      have step : createTensors z (ts ++ [t]) = createTensor z (createTensors z ts) t := by
        simp only [createTensors]
        rw [List.foldl_append, List.foldl_cons, List.foldl_nil]
      rw [step]
      exact ih.create t

end MoeStream
