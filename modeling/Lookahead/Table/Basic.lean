import Lookahead.Table.Board

set_option autoImplicit false

namespace Lookahead

structure Annotation where
  layout : LayoutSet
  lookaheads : Array TerminalSet
deriving DecidableEq

structure Table where
  states : Array Annotation
  maxItemCount : Nat
deriving DecidableEq

def Row.annotation (row : Row) : Annotation := ⟨row.layout, row.cells.map Cell.lookahead⟩

-- Every wave but the last makes some cell grow, so this many waves settle any board.
def waveLimit (net : Network) (b : Board) : Nat :=
  b.rows.foldl (fun count row => count + row.cells.size) 0 * net.capacity + 1

def Automaton.table (a : Automaton) (g : Grammar) (ctx : Context) : Except Fault Table := do
  if ((← a.state 0).items[0]?) ≠ some Item.start then throw .startItemExpected
  let net := Network.of g ctx a
  let start := Board.initial g a
  let b ← start.spread net (waveLimit net start)
  return ⟨b.rows.map Row.annotation, a.maxItemCount⟩

namespace Table

def annotation (table : Table) (s : Nat) : Except Fault Annotation :=
  match table.states[s]? with
  | some annotation => .ok annotation
  | none => .error (.unknownState s)

def layout (table : Table) (s : Nat) : Except Fault LayoutSet :=
  return (← table.annotation s).layout

def lookahead (table : Table) (s i : Nat) : Except Fault TerminalSet := do
  match (← table.annotation s).lookaheads[i]? with
  | some set => .ok set
  | none => .error (.unknownItem s i)

end Table

end Lookahead
