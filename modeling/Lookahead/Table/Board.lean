import Lookahead.Table.Row

set_option autoImplicit false

namespace Lookahead

structure Network where
  grammar : Grammar
  automaton : Automaton
  outlooks : Array (Array (Except Fault Outlook))
  -- No cell ever holds more elements than this.
  capacity : Nat

def Network.of (g : Grammar) (ctx : Context) (a : Automaton) : Network :=
  ⟨g, a, a.states.map (g.outlooks ctx), ctx.terminals + 2 * g.layouts.size⟩

structure Board where
  rows : Array Row
  -- The items of each state whose cells have grown.
  marks : Array (BitSet Nat)

namespace Board

def row (b : Board) (s : Nat) : Row := b.rows.getD s (.empty 0)

def unmarked (b : Board) : Board := ⟨b.rows, b.marks.map fun _ => ∅⟩

def Settled (b : Board) : Prop := ∀ seed ∈ b.marks, seed = ∅

instance (b : Board) : Decidable b.Settled := inferInstanceAs (Decidable (∀ seed ∈ b.marks, seed = ∅))

def initial (g : Grammar) (a : Automaton) : Board where
  rows := (a.states.map fun state => Row.empty state.items.size).modify 0 fun row =>
    row.merge 0 ⟨∅, g.startLayout, ∅⟩
  marks := (a.states.map fun _ => (∅ : BitSet Nat)).modify 0 fun seed => seed.insert 0

def carry (b : Board) (s i t j : Nat) (layout : LayoutSet) : Board :=
  let c := (b.row s).cell i
  let grows := ¬ c ⊆ (b.row t).cell j
  ⟨b.rows.modify t fun row => (row.merge j c).permit layout,
    if grows then b.marks.modify t (·.insert j) else b.marks⟩

def layoutAtDot (g : Grammar) (item : Item) : Except Fault LayoutSet := do
  let p ← g.production item.production
  return if item.position < p.right.size then p.layout else ∅

def carryOver (net : Network) (s : Nat) (visited : BitSet Nat) (b : Board) (x : Symbol) :
    Except Fault Board := do
  let edge ← net.automaton.edge s x
  (edge.moves.filter fun move => move.1 ∈ visited).foldlM (fun b (i, j) => do
    let layout ← layoutAtDot net.grammar (← net.automaton.item edge.target j)
    return b.carry s i edge.target j layout) b

def activeSymbols (g : Grammar) (items : Array Item) (visited : BitSet Nat) : List Symbol :=
  (Numbering.ofList (visited.toList.filterMap fun i => items[i]?.bind g.moveSymbol?)).toList

def passOn (net : Network) (b : Board) (marked : BitSet Nat × Nat) : Except Fault Board := do
  let (seed, s) := marked
  let row := b.row s
  let (row, visited) ←
    row.settle (net.outlooks.getD s #[]) (row.cells.size * net.capacity + 1) seed ∅
  let state ← net.automaton.state s
  (activeSymbols net.grammar state.items visited).foldlM (carryOver net s visited)
    ⟨b.rows.modify s fun _ => row, b.marks⟩

-- One wave settles every state that holds marked items and carries the cells of the visited ones to the items they
-- become; cells that grow by that are marked for the next wave.
def wave (net : Network) (b : Board) : Except Fault Board :=
  (b.marks.toList.zipIdx.filter (·.1 ≠ ∅)).foldlM (passOn net) b.unmarked

def spread (net : Network) : Nat → Board → Except Fault Board
  | 0, b => .ok b
  | waves + 1, b => if b.Settled then .ok b else do spread net waves (← wave net b)

end Board

end Lookahead
