import Lookahead.Automaton.Item

set_option autoImplicit false

namespace Lookahead

structure Edge where
  symbol : Symbol
  target : Nat
  -- Each item that is moved, and the item of the target it becomes, both by index.
  moves : List (Nat × Nat)
deriving DecidableEq, Repr

structure State where
  -- The kernel, in increasing order, before the items it opens.
  items : Array Item
  kernelSize : Nat
  edges : List Edge
deriving DecidableEq, Repr

structure Automaton where
  states : Array State
deriving DecidableEq, Repr

def State.kernel (state : State) : List Item := state.items.toList.take state.kernelSize

def State.edge? (state : State) (x : Symbol) : Option Edge := state.edges.find? (·.symbol = x)

namespace Automaton

def size (a : Automaton) : Nat := a.states.size

def maxItemCount (a : Automaton) : Nat := a.states.foldl (fun most state => max most state.items.size) 0

def state (a : Automaton) (s : Nat) : Except Fault State :=
  match a.states[s]? with
  | some state => .ok state
  | none => .error (.unknownState s)

def edge (a : Automaton) (s : Nat) (x : Symbol) : Except Fault Edge := do
  match (← a.state s).edge? x with
  | some edge => .ok edge
  | none => .error (.missingTransition s x)

def transition (a : Automaton) (s : Nat) (x : Symbol) : Except Fault Nat :=
  return (← a.edge s x).target

def moves (a : Automaton) (s : Nat) (x : Symbol) : Except Fault (List (Nat × Nat)) :=
  return (← a.edge s x).moves

def item (a : Automaton) (s i : Nat) : Except Fault Item := do
  match (← a.state s).items[i]? with
  | some item => .ok item
  | none => .error (.unknownItem s i)

-- The states met on a path from a state, each after one symbol of it; the first symbol without a
-- transition ends the path.
def walk (a : Automaton) (s : Nat) : List Symbol → List (Except Fault Nat)
  | [] => []
  | x :: path =>
      match a.transition s x with
      | .ok next => .ok next :: a.walk next path
      | .error fault => [.error fault]

end Automaton

end Lookahead
