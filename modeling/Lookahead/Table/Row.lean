import Lookahead.Table.Outlook

set_option autoImplicit false

namespace Lookahead

structure Row where
  cells : Array Cell
  layout : LayoutSet
deriving DecidableEq

namespace Row

def empty (size : Nat) : Row := ⟨(List.replicate size ∅).toArray, ∅⟩

def cell (row : Row) (i : Nat) : Cell := row.cells.getD i ∅

def permit (row : Row) (layout : LayoutSet) : Row := ⟨row.cells, row.layout ∪ layout⟩

def merge (row : Row) (i : Nat) (c : Cell) : Row := ⟨row.cells.modify i (· ∪ c), row.layout⟩

def receive (c : Cell) (state : Row × BitSet Nat) (i : Nat) : Row × BitSet Nat :=
  if c ⊆ state.1.cell i then state else (state.1.merge i c, state.2.insert i)

-- What an entry opens with is admitted when the entry is visited, and not before: an entry that receives something
-- new is visited in the next round, so to admit it on receipt would add nothing.
def visit (outlooks : Array (Except Fault Outlook)) (state : Row × BitSet Nat) (i : Nat) :
    Except Fault (Row × BitSet Nat) := do
  let o ← outlooks.getD i (.error (.indexOutOfRange i))
  let c := state.1.cell i
  return o.entries.foldl (receive (o.offer c)) (state.1.permit (o.admits c), state.2)

-- Visits the active items in order, then those whose cells grew, and so on until none grows. The result tells which
-- items have been visited, the `visited` ones included.
def settle (outlooks : Array (Except Fault Outlook)) :
    (rounds : Nat) → (row : Row) → (active visited : BitSet Nat) → Except Fault (Row × BitSet Nat)
  | 0, row, _, visited => .ok (row, visited)
  | rounds + 1, row, active, visited =>
      if active = ∅ then .ok (row, visited)
      else do
        let (row, grown) ← active.toList.foldlM (visit outlooks) (row, ∅)
        settle outlooks rounds row grown (visited ∪ active)

end Row

end Lookahead
