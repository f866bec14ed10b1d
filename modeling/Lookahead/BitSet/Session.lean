import Lookahead.BitSet.Store

set_option autoImplicit false

namespace Lookahead

inductive SetStep where
  -- Replaces the target by an empty set; room for elements is no part of a set.
  | withCapacity (capacity : Nat)
  | collect (indices : List Nat)
  | clear
  | clone (source : Nat)
  | insert (index : Nat)
  | contains (index : Nat)
  | union (source : Nat)
  | isSubset (other : Nat)
  | equals (other : Nat)
  | isEmpty
deriving DecidableEq, Repr

namespace SetStep

variable {σ : Type} [BitStore σ]

def lookup (sets : Array σ) (k : Nat) : Except Fault σ :=
  match sets[k]? with
  | some s => .ok s
  | none => .error (.indexOutOfRange k)

def act (sets : Array σ) (s : σ) : SetStep → Except Fault (σ × Option Bool)
  | withCapacity capacity => return (BitStore.withCapacity capacity, none)
  | collect indices => return (BitStore.ofIndices (← indices.mapM IdSet.element), none)
  | clear => return (BitStore.clear s, none)
  | clone source => return (← lookup sets source, none)
  | insert index => do
      let (s', added) := BitStore.insert s (← IdSet.element index)
      return (s', some added)
  | contains index => return (s, some (BitStore.contains s (← IdSet.element index)))
  | union source => do
      let (s', grown) := IdSet.unionWith s (← lookup sets source)
      return (s', some grown)
  | isSubset other => return (s, some (BitStore.isSubset s (← lookup sets other)))
  | equals other => return (s, some (IdSet.equals s (← lookup sets other)))
  | isEmpty => return (s, some (BitStore.isEmpty s))

def run (sets : Array σ) (k : Nat) (step : SetStep) : Except Fault (Array σ × Option Bool) := do
  let (s, answer) ← step.act sets (← lookup sets k)
  return (sets.setIfInBounds k s, answer)

def runAll (sets : Array σ) : List (Nat × SetStep) → Except Fault (Array σ × List (Option Bool))
  | [] => return (sets, [])
  | (k, step) :: rest => do
      let (sets', answer) ← step.run sets k
      let (sets'', answers) ← runAll sets' rest
      return (sets'', answer :: answers)

end SetStep

end Lookahead
