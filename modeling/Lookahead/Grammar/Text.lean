import Lookahead.Grammar.Basic

set_option autoImplicit false

namespace Lookahead

def setText (items : List String) : String :=
  "\x7b" ++ String.intercalate ", " items ++ "\x7d"

namespace BitSet

def terminalLabels (s : TerminalSet) : String := setText (s.toList.map Terminal.label)

def layoutLabels (s : LayoutSet) : String := setText (s.toList.map Layout.label)

end BitSet

def Grammar.terminalSetText (g : Grammar) (s : TerminalSet) : Except Fault String :=
  return setText (← s.toList.mapM g.terminalName)

def Grammar.layoutSetText (g : Grammar) (s : LayoutSet) : Except Fault String :=
  return setText (← s.toList.mapM g.layoutName)

namespace Production

def text (g : Grammar) (p : Production) : Except Fault String := do
  let left ← g.nonterminalName p.left
  let right ← p.right.toList.mapM g.symbolName
  return left ++ " -> " ++ if right.isEmpty then "ε" else String.intercalate " " right

def layoutRemark (g : Grammar) (layout : LayoutSet) : Except Fault String :=
  if layout = ∅ then .ok ""
  else return " (layout: " ++ (← g.layoutSetText layout) ++ ")"

def line (g : Grammar) (p : Production) : Except Fault String :=
  return "- " ++ (← p.text g) ++ (← layoutRemark g p.layout) ++ "\n"

end Production

def Grammar.text (g : Grammar) : Except Fault String := do
  let lines ← g.productions.mapM fun p => p.line g
  return "#### terminals: " ++ String.intercalate ", " g.terminals.toList
    ++ "\n#### layouts: " ++ String.intercalate ", " g.layouts.toList
    ++ "\n#### nonterminals: " ++ String.intercalate ", " g.nonterminals.toList
    ++ "\n#### productions:\n" ++ String.join lines

end Lookahead
