import Lookahead.Automaton.Collection
import Lookahead.Table.Text

set_option autoImplicit false

namespace Lookahead

structure Analysis where
  grammar : Grammar
  context : Context
  automaton : Automaton
  table : Table

def Grammar.analysis (g : Grammar) : Except Fault Analysis := do
  let ctx := g.context
  let a ← g.automaton
  return ⟨g, ctx, a, ← a.table g ctx⟩

def Analysis.automatonPart (analysis : Analysis) (wanted : Bool) : Except Fault String :=
  if wanted then return (← analysis.automaton.text analysis.grammar) ++ "\n" else .ok ""

def Analysis.dump (analysis : Analysis) (withAutomaton : Bool) : Except Fault String :=
  return (← analysis.grammar.text) ++ "\n" ++ (← analysis.automatonPart withAutomaton)
    ++ (← analysis.table.text analysis.grammar analysis.automaton)

end Lookahead
