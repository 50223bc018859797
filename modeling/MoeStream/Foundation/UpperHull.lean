import MoeStream.Foundation.SlopeFill

/-!
# Upper hulls by the monotone chain

The chain visits the points of a curve from left to right and removes the last
vertex as long as it lies on or below the chord to the new point.  A removed
vertex is dominated by one of its neighbours in every direction, so the vertices
that remain dominate the whole curve in every direction, and the rises of the
hull above a price bound the curve at that price.
-/

set_option autoImplicit false

namespace MoeStream.Foundation.UpperHull

open SlopeFill

variable {K : Type} [Field K] [LinearOrder K] (V : Nat → K)

/-- The slope of the chord between two points of the curve. -/
def slope (a b : Nat) : K := (V b - V a) / ((b - a : Nat) : K)

/-- Remove vertices that lie on or below the chord to the point `c`; the last
vertex is the head. -/
def pop (c : Nat) : List Nat → List Nat
  | b :: a :: rest => if slope V a b ≤ slope V b c then pop c (a :: rest) else b :: a :: rest
  | hull => hull

/-- The vertices of the upper hull over `0, …, n`, the last one first. -/
def chain (n : Nat) : List Nat := (List.range' 1 n).foldl (fun hull c => c :: pop V c hull) [0]

def edges : List Nat → List (K × Nat)
  | b :: a :: rest => edges (a :: rest) ++ [(slope V a b, b - a)]
  | _ => []

@[simp] theorem chain_succ (n : Nat) : chain V (n + 1) = (n + 1) :: pop V (n + 1) (chain V n) := by
  simp only [chain]
  rw [List.range'_concat, List.foldl_append, Nat.one_mul, Nat.add_comm 1 n]
  rfl

/-! ## The vertices -/

structure Vertices (hull : List Nat) : Prop where
  order : hull.Pairwise fun b a => a < b
  first : 0 ∈ hull

theorem Vertices.tail {b a : Nat} {rest : List Nat} (vertices : Vertices (b :: a :: rest)) :
    Vertices (a :: rest) := by
  obtain ⟨below, order⟩ := List.pairwise_cons.mp vertices.order
  refine ⟨order, ?_⟩
  rcases List.mem_cons.mp vertices.first with zero | later
  · have small := below a List.mem_cons_self
    omega
  · exact later

theorem Vertices.pop {hull : List Nat} (vertices : Vertices hull) (c : Nat) :
    Vertices (pop V c hull) := by
  induction hull with
  | nil => exact vertices
  | cons b rest ih =>
      cases rest with
      | nil => exact vertices
      | cons a rest =>
          simp only [UpperHull.pop]
          split
          · exact ih vertices.tail
          · exact vertices

theorem mem_pop {c v : Nat} {hull : List Nat} (member : v ∈ pop V c hull) : v ∈ hull := by
  induction hull with
  | nil => exact member
  | cons b rest ih =>
      cases rest with
      | nil => exact member
      | cons a rest =>
          simp only [pop] at member
          split at member
          · exact List.mem_cons_of_mem b (ih member)
          · exact member

theorem chain_vertices (n : Nat) : Vertices (chain V n) ∧ ∀ v ∈ chain V n, v ≤ n := by
  induction n with
  | zero => exact ⟨⟨List.pairwise_singleton _ 0, List.mem_cons_self⟩, by simp [chain]⟩
  | succ n ih =>
      obtain ⟨vertices, below⟩ := ih
      have popped := vertices.pop V (n + 1)
      have small : ∀ v ∈ pop V (n + 1) (chain V n), v < n + 1 := fun v member =>
        Nat.lt_succ_of_le (below v (mem_pop V member))
      rw [chain_succ]
      refine ⟨⟨List.pairwise_cons.mpr ⟨small, popped.order⟩,
        List.mem_cons_of_mem _ popped.first⟩, ?_⟩
      intro v member
      rcases List.mem_cons.mp member with rfl | later
      · exact Nat.le_refl _
      · exact Nat.le_of_lt (small v later)

/-! ## Domination -/

/-- What a point is worth when a step to the right costs `price`. -/
def worth (price : K) (x : Nat) : K := V x - price * x

variable {V} [IsStrictOrderedRing K]

theorem worth_rise (price : K) {a b : Nat} (order : a < b) :
    worth V price b = worth V price a + (slope V a b - price) * ((b - a : Nat) : K) := by
  have width : ((b - a : Nat) : K) = b - a := Nat.cast_sub (Nat.le_of_lt order)
  have positive : (0 : K) < ((b - a : Nat) : K) := Nat.cast_pos.mpr (Nat.sub_pos_of_lt order)
  have rise : slope V a b * ((b - a : Nat) : K) = V b - V a := div_mul_cancel₀ _ positive.ne'
  rw [worth, worth, sub_mul, rise, width]
  ring

/-- A point on or below the chord of its neighbours is worth no more than one of
them. -/
theorem worth_between (price : K) {a b c : Nat} (left : a < b) (right : b < c)
    (under : slope V a b ≤ slope V b c) :
    worth V price b ≤ worth V price a ∨ worth V price b ≤ worth V price c := by
  have riseLeft := worth_rise (V := V) price left
  have riseRight := worth_rise (V := V) price right
  have widthLeft : (0 : K) ≤ ((b - a : Nat) : K) := Nat.cast_nonneg _
  have widthRight : (0 : K) ≤ ((c - b : Nat) : K) := Nat.cast_nonneg _
  rcases le_total (slope V a b) price with cheap | dear
  · left
    have loss := mul_nonneg (sub_nonneg.mpr cheap) widthLeft
    rw [riseLeft]
    linarith
  · right
    have gain := mul_nonneg (sub_nonneg.mpr (dear.trans under)) widthRight
    rw [riseRight]
    linarith

/-- Whatever is removed is worth no more than a vertex that remains or the new
point. -/
theorem pop_dominates (price : K) {c : Nat} {hull : List Nat} (vertices : Vertices hull)
    (below : ∀ v ∈ hull, v < c) :
    ∀ v ∈ hull, ∃ u ∈ c :: pop V c hull, worth V price v ≤ worth V price u := by
  induction hull with
  | nil => exact fun v member => by cases member
  | cons b rest ih =>
      cases rest with
      | nil => exact fun v member => ⟨v, List.mem_cons_of_mem c member, le_refl _⟩
      | cons a rest =>
          have order := (List.pairwise_cons.mp vertices.order).1 a List.mem_cons_self
          have later := ih vertices.tail fun v member => below v (List.mem_cons_of_mem b member)
          simp only [pop]
          split
          · rename_i under
            intro v member
            rcases List.mem_cons.mp member with rfl | rest
            · rcases worth_between price order (below v List.mem_cons_self) under with left | right
              · obtain ⟨u, kept, more⟩ := later a List.mem_cons_self
                exact ⟨u, kept, left.trans more⟩
              · exact ⟨c, List.mem_cons_self, right⟩
            · exact later v rest
          · exact fun v member => ⟨v, List.mem_cons_of_mem c member, le_refl _⟩

theorem chain_dominates (price : K) (n : Nat) :
    ∀ x, x ≤ n → ∃ v ∈ chain V n, worth V price x ≤ worth V price v := by
  induction n with
  | zero =>
      intro x zero
      obtain rfl := Nat.le_zero.mp zero
      exact ⟨0, List.mem_cons_self, le_refl _⟩
  | succ n ih =>
      intro x bound
      obtain ⟨vertices, below⟩ := chain_vertices V n
      have kept := pop_dominates (V := V) price vertices fun v member =>
        Nat.lt_succ_of_le (below v member)
      rw [chain_succ]
      by_cases last : x = n + 1
      · exact ⟨n + 1, List.mem_cons_self, by rw [last]⟩
      · obtain ⟨v, member, more⟩ := ih x (by omega)
        obtain ⟨u, vertex, most⟩ := kept v member
        exact ⟨u, vertex, more.trans most⟩

/-! ## The edges -/

/-- A vertex is worth no more than the edges to the left of it bring. -/
theorem worth_vertex (price : K) {hull : List Nat} (vertices : Vertices hull) :
    ∀ v ∈ hull, worth V price v ≤ V 0 + profit price (edges V hull) := by
  induction hull with
  | nil => exact fun v member => by cases member
  | cons b rest ih =>
      cases rest with
      | nil =>
          intro v member
          have zero := List.mem_singleton.mp vertices.first
          rw [List.mem_singleton.mp member, ← zero]
          simp [worth, edges, profit]
      | cons a rest =>
          have order := (List.pairwise_cons.mp vertices.order).1 a List.mem_cons_self
          have later := ih vertices.tail
          have own : (slope V a b - price) * ((b - a : Nat) : K) ≤
              profit price [(slope V a b, b - a)] := by
            simp only [profit, List.map_singleton, List.sum_singleton]
            exact mul_le_mul_of_nonneg_right (le_max_right _ _) (Nat.cast_nonneg _)
          have more := profit_nonneg price [(slope V a b, b - a)]
          rw [edges, profit_append]
          intro v member
          rcases List.mem_cons.mp member with rfl | rest
          · have before := later a List.mem_cons_self
            rw [worth_rise price order]
            linarith
          · have before := later v rest
            linarith

/-- A point of the curve is worth no more than the edges of the hull bring. -/
theorem worth_le_profit (price : K) {n x : Nat} (inside : x ≤ n) :
    worth V price x ≤ V 0 + profit price (edges V (chain V n)) := by
  obtain ⟨v, vertex, more⟩ := chain_dominates price n x inside
  exact more.trans (worth_vertex price (chain_vertices V n).1 v vertex)

omit [LinearOrder K] [IsStrictOrderedRing K] in
theorem edges_width {b : Nat} {rest : List Nat} (vertices : Vertices (b :: rest)) :
    ((edges V (b :: rest)).map Prod.snd).sum = b := by
  induction rest generalizing b with
  | nil =>
      have zero := List.mem_singleton.mp vertices.first
      rw [← zero]
      rfl
  | cons a rest ih =>
      have order := (List.pairwise_cons.mp vertices.order).1 a List.mem_cons_self
      have before := ih vertices.tail
      rw [edges, List.map_append, List.sum_append, before, List.map_singleton, List.sum_singleton]
      omega

end MoeStream.Foundation.UpperHull
