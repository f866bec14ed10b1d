import Lookahead.Automaton.Text
import Lookahead.Table.Basic

set_option autoImplicit false

namespace Lookahead

namespace Table

def itemLine (table : Table) (g : Grammar) (s : Nat) (entry : Item × Nat) : Except Fault String :=
  return "- " ++ (← entry.1.text g) ++ ", " ++ (← g.terminalSetText (← table.lookahead s entry.2)) ++ "\n"

def stateText (table : Table) (g : Grammar) (entry : State × Nat) : Except Fault String := do
  let layout ← g.layoutSetText (← table.layout entry.2)
  let items ← entry.1.items.toList.zipIdx.mapM (table.itemLine g entry.2)
  return "#### " ++ stateLabel entry.2 ++ "\n## layout: " ++ layout ++ "\n## items:\n" ++ String.join items

def text (table : Table) (g : Grammar) (a : Automaton) : Except Fault String :=
  return String.join (← a.states.toList.zipIdx.mapM (table.stateText g))

end Table

end Lookahead
