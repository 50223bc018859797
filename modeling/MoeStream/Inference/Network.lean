import MoeStream.Foundation.Staged
import MoeStream.Slab.Remap

/-!
# What a model computes

A model is given by the layers with experts, in the order of the graph, and by
what the graph computes between the reads of their weights.  Evaluated with all
weights at hand it is a deterministic program over batches and layers.
-/

set_option autoImplicit false

namespace MoeStream.Inference

open Foundation

abbrev Matrices := Role → List Byte

/-- A graph apart from its expert weights: `x` is all it carries from one node to
the next, the KV cache included. -/
structure Network (B X Y : Type) where
  layers : List Nat
  /-- A batch and the nodes before its first layer. -/
  feed : B → X → X
  /-- `selected_experts`. -/
  selected : Nat → X → Ids
  /-- What position `n` of the ids contributes when multiplied by these matrices. -/
  ffn : Nat → X → Nat → Matrices → Y
  /-- The contributions, and the nodes up to the next layer. -/
  join : Nat → X → List Y → X

variable {B X Y : Type} (net : Network B X Y)

def Network.contributions (il : Nat) (x : X) (index : List Int) (matrices : Nat → Nat → Matrices) :
    List Y :=
  (List.range index.length).map fun n => net.ffn il x n (matrices n (index.getD n 0).toNat)

def Network.layer (weights : Nat → Nat → Matrices) (il : Nat) (x : X) : X :=
  net.join il x
    (net.contributions il x (net.selected il x).list fun _ e => weights il e)

def Network.resident (weights : Nat → Nat → Matrices) : Staged B Nat X where
  feed := net.feed
  stages := fun _ => net.layers
  apply := net.layer weights

end MoeStream.Inference
