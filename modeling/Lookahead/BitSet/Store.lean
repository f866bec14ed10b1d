import Lookahead.BitSet.Basic
import Lookahead.Fault

set_option autoImplicit false

namespace Lookahead

-- A store may have any amount of room. Its room and its past are no part of the set, so two sets are compared by
-- what they list, and a union asks first whether there is anything to add.
class BitStore (σ : Type) where
  new : σ
  withCapacity : Nat → σ
  ofIndices : List Nat → σ
  clear : σ → σ
  contains : σ → Nat → Bool
  -- Tells whether the bit was missing.
  insert : σ → Nat → σ × Bool
  union : σ → σ → σ
  isSubset : σ → σ → Bool
  isEmpty : σ → Bool
  indices : σ → List Nat

instance {α : Type} [Indexed α] : BitStore (BitSet α) where
  new := ∅
  withCapacity _ := ∅
  ofIndices indices := .ofList (indices.map Indexed.ofIndex)
  clear _ := ∅
  contains s i := decide (Indexed.ofIndex i ∈ s)
  insert s i := (s.insert (Indexed.ofIndex i), decide (Indexed.ofIndex i ∉ s))
  union s t := s ∪ t
  isSubset s t := decide (s ⊆ t)
  isEmpty s := decide (s = ∅)
  indices s := s.toList.map Indexed.index

namespace IdSet

-- Identifiers have numbers up to this one.
def indexLimit : Nat := 65535

def element (index : Nat) : Except Fault Nat :=
  if index ≤ indexLimit then .ok index else .error (.indexOutOfRange index)

variable {σ : Type} [BitStore σ]

def unionWith (s t : σ) : σ × Bool :=
  if BitStore.isSubset t s then (s, false) else (BitStore.union s t, true)

def equals (s t : σ) : Bool := BitStore.indices s = BitStore.indices t

def iter (s : σ) : Except Fault (List Nat) := (BitStore.indices s).mapM element

end IdSet

end Lookahead
