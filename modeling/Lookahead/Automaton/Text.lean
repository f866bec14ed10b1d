import Lookahead.Automaton.Basic
import Lookahead.Grammar.Text

set_option autoImplicit false

namespace Lookahead

def Item.text (g : Grammar) (item : Item) : Except Fault String := do
  let p ← g.production item.production
  let left ← g.nonterminalName p.left
  let right ← p.right.toList.mapM g.symbolName
  let spaced := fun names : List String => String.join (names.map (" " ++ ·))
  return left ++ " -> [" ++ spaced (right.take item.position)
    ++ (if item.position ≤ right.length then " ." else "")
    ++ spaced (right.drop item.position) ++ " ]"

namespace State

def itemLine (g : Grammar) (kernelSize : Nat) (entry : Item × Nat) : Except Fault String :=
  return (if entry.2 < kernelSize then "* [" else "- [") ++ toString entry.2 ++ "] "
    ++ (← entry.1.text g) ++ "\n"

def edgeLine (g : Grammar) (edge : Edge) : Except Fault String :=
  return "- " ++ (← g.symbolName edge.symbol) ++ " => " ++ stateLabel edge.target ++ "\n"

def text (g : Grammar) (state : State) : Except Fault String := do
  let items ← state.items.toList.zipIdx.mapM (itemLine g state.kernelSize)
  let edges ← state.edges.mapM (edgeLine g)
  return "## items:\n" ++ String.join items
    ++ (if edges.isEmpty then "" else "## transitions:\n") ++ String.join edges

end State

def Automaton.text (g : Grammar) (a : Automaton) : Except Fault String := do
  let states ← a.states.toList.zipIdx.mapM fun (state, s) =>
    return "#### " ++ stateLabel s ++ "\n" ++ (← state.text g)
  return String.join states

end Lookahead
