import Lookahead.BitSet.Basic
import Lookahead.Fault

set_option autoImplicit false

namespace Lookahead

structure Production where
  left : Nonterminal
  right : Array Symbol
  layout : LayoutSet
deriving DecidableEq

structure Grammar where
  -- Names by number; number 0 is `#EOI`.
  terminals : Array String
  layouts : Array String
  -- Names by number; number 0 is `#Start`.
  nonterminals : Array String
  rules : Array Production
  startSymbol : Nonterminal
  startLayout : LayoutSet
deriving DecidableEq

namespace Grammar

-- The augmented production is not stored: the start symbol and the start layout determine it.
def accept (g : Grammar) : Production where
  left := .start
  right := #[.nonterminal g.startSymbol, .terminal .endOfInput]
  layout := g.startLayout

def production? (g : Grammar) : ProductionId → Option Production
  | .rule i => g.rules[i]?
  | .accept => some g.accept

def productionIds (g : Grammar) : List ProductionId :=
  (List.range g.rules.size).map .rule ++ [.accept]

def productions (g : Grammar) : List Production := g.rules.toList ++ [g.accept]

def production (g : Grammar) (id : ProductionId) : Except Fault Production :=
  match g.production? id with
  | some p => .ok p
  | none => .error (.unknownProduction id)

def terminalName (g : Grammar) (t : Terminal) : Except Fault String :=
  match g.terminals[t.index]? with
  | some name => .ok name
  | none => .error (.unnamedTerminal t)

def layoutName (g : Grammar) (l : Layout) : Except Fault String :=
  match g.layouts[l.index]? with
  | some name => .ok name
  | none => .error (.unnamedLayout l)

def nonterminalName (g : Grammar) (n : Nonterminal) : Except Fault String :=
  match g.nonterminals[n.index]? with
  | some name => .ok name
  | none => .error (.unnamedNonterminal n)

def symbolName (g : Grammar) : Symbol → Except Fault String
  | .terminal t => g.terminalName t
  | .nonterminal n => g.nonterminalName n

def terminalByName? (g : Grammar) (name : String) : Option Terminal :=
  (g.terminals.findIdx? (· == name)).map Terminal.mk

def layoutByName? (g : Grammar) (name : String) : Option Layout :=
  (g.layouts.findIdx? (· == name)).map Layout.mk

def nonterminalByName? (g : Grammar) (name : String) : Option Nonterminal :=
  (g.nonterminals.findIdx? (· == name)).map Nonterminal.mk

end Grammar

end Lookahead
