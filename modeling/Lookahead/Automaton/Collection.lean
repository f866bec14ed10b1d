import Lookahead.Automaton.Basic

set_option autoImplicit false

namespace Lookahead

structure Shift where
  symbol : Symbol
  moved : List (Nat × Item)

def Shift.kernel (shift : Shift) : List Item := shift.moved.map Prod.snd

def insertByItem (a : Nat × Item) : List (Nat × Item) → List (Nat × Item)
  | [] => [a]
  | b :: rest => if (compare b.2 a.2).isLT then b :: insertByItem a rest else a :: b :: rest

def sortByItem (as : List (Nat × Item)) : List (Nat × Item) := as.foldr insertByItem []

namespace Grammar

def closures (g : Grammar) : Array (List Item) :=
  ((List.range g.nonterminals.size).map fun i => g.entryClosure ⟨i⟩).toArray

def openedBy (g : Grammar) (closures : Array (List Item)) (item : Item) : List Item :=
  match g.symbolAfterDot? item with
  | some (.nonterminal n) => closures.getD n.index []
  | _ => []

def stateItems (g : Grammar) (closures : Array (List Item)) (kernel : List Item) : List Item :=
  (Numbering.ofList (kernel ++ kernel.flatMap (g.openedBy closures))).toList

def shifts (g : Grammar) (items : List Item) : List Shift :=
  let indexed := items.zipIdx.filterMap fun (item, i) =>
    (g.moveSymbol? item).map fun x => (x, i, item.advance)
  (Numbering.ofList (indexed.map Prod.fst)).toList.map fun x =>
    ⟨x, sortByItem ((indexed.filter fun entry => entry.1 = x).map Prod.snd)⟩

def nextKernels (g : Grammar) (closures : Array (List Item)) (kernel : List Item) : List (List Item) :=
  (g.shifts (g.stateItems closures kernel)).map Shift.kernel

def stateLimit : Nat := 65535

-- The kernels of all states, by the numbers of the states: breadth first from the start state, the moves of a
-- state being taken in the order in which its items mention their symbols.
def kernels (g : Grammar) (closures : Array (List Item)) : Numbering (List Item) :=
  .reach (g.nextKernels closures) stateLimit [[.start]]

def state (g : Grammar) (closures : Array (List Item)) (kernels : Numbering (List Item))
    (kernel : List Item) : State :=
  let items := g.stateItems closures kernel
  let edges := (g.shifts items).filterMap fun shift =>
    (kernels.number? shift.kernel).map fun target =>
      ⟨shift.symbol, target, (shift.moved.map Prod.fst).zipIdx⟩
  ⟨items.toArray, kernel.length, edges⟩

def automaton (g : Grammar) : Except Fault Automaton :=
  let closures := g.closures
  let kernels := g.kernels closures
  if kernels.size ≤ stateLimit then .ok ⟨kernels.values.map (g.state closures kernels)⟩
  else .error .tooManyStates

end Grammar

end Lookahead
