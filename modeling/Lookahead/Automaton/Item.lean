import Lookahead.Grammar.Basic
import Lookahead.Numbering

set_option autoImplicit false

namespace Lookahead

structure Item where
  production : ProductionId
  position : Nat
deriving DecidableEq, Repr

namespace Item

instance : Ord Item := ⟨compareLex (compareOn Item.production) (compareOn Item.position)⟩

instance : Std.TransOrd Item :=
  inferInstanceAs (Std.TransCmp (compareLex (compareOn Item.production) (compareOn Item.position)))

instance : Std.LawfulEqOrd Item where
  eq_of_compare {a b} h := by
    obtain ⟨productions, positions⟩ := Ordering.then_eq_eq.mp h
    have sameProduction : a.production = b.production := Std.LawfulEqOrd.eq_of_compare productions
    have samePosition : a.position = b.position := Std.LawfulEqOrd.eq_of_compare positions
    cases a
    cases b
    simp_all

def start : Item := ⟨.accept, 0⟩

def advance (item : Item) : Item := ⟨item.production, item.position + 1⟩

end Item

namespace Grammar

def symbolAfterDot? (g : Grammar) (item : Item) : Option Symbol :=
  (g.production? item.production).bind fun p => p.right[item.position]?

-- The symbol on which the automaton moves the dot of an item. Where the end of input is expected, the
-- input is accepted and no move follows.
def moveSymbol? (g : Grammar) (item : Item) : Option Symbol :=
  (g.symbolAfterDot? item).filter (· ≠ .terminal .endOfInput)

def entries (g : Grammar) (n : Nonterminal) : List Item :=
  (g.productionIds.filter fun id => (g.production? id).any (·.left = n)).map fun id => ⟨id, 0⟩

def opens (g : Grammar) (item : Item) : List Item :=
  match g.symbolAfterDot? item with
  | some (.nonterminal n) => g.entries n
  | _ => []

-- Everything that the entries of a nonterminal open, themselves included: a search breadth first among the
-- items that have the dot at the left end, of which there is one for each production.
def entryClosure (g : Grammar) (n : Nonterminal) : List Item :=
  (Numbering.reach g.opens (g.rules.size + 1) (g.entries n)).toList

end Grammar

end Lookahead
