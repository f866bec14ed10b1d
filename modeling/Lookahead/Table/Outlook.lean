import Lookahead.Automaton.Basic
import Lookahead.Context
import Lookahead.Table.Cell

set_option autoImplicit false

namespace Lookahead

-- What the grammar says about an item of a state, apart from what is gathered there.
structure Outlook where
  atStart : Bool
  atEnd : Bool
  layout : LayoutSet
  -- What the symbols behind the one after the dot can begin with.
  behind : Prospect
  -- Whether all symbols after the dot can vanish.
  vanishing : Bool
  entries : List Nat
deriving DecidableEq

namespace Outlook

-- What the production itself admits behind the symbol after the dot: its layout, if one of its terminals can come
-- next there, or if the dot has symbols on both sides.
def gap (o : Outlook) : LayoutSet :=
  if o.behind.first ≠ ∅ ∨ (¬ o.atStart ∧ ¬ o.atEnd) then o.layout else ∅

def offer (o : Outlook) (c : Cell) : Cell where
  lookahead := o.behind.first ∪ if o.behind.nullable then c.lookahead else ∅
  opening := if o.atStart then c.opening else o.layout
  closing := o.gap ∪ if o.behind.nullable then c.closing else ∅

def admits (o : Outlook) (c : Cell) : LayoutSet :=
  (if o.atStart then c.opening else ∅) ∪ if o.vanishing then c.closing else ∅

end Outlook

def Grammar.heads (g : Grammar) (items : List Item) : Except Fault (List (Option Nonterminal)) :=
  items.mapM fun item => do
    let p ← g.production item.production
    return if item.position = 0 then some p.left else none

def entryIndices (heads : List (Option Nonterminal)) (x : Symbol) : List Nat :=
  heads.zipIdx.filterMap fun (head, i) => if head.map Symbol.nonterminal = some x then some i else none

def Grammar.outlook (g : Grammar) (ctx : Context) (heads : Except Fault (List (Option Nonterminal)))
    (item : Item) : Except Fault Outlook := do
  let p ← g.production item.production
  let behind ← ctx.prospect (p.right.toList.drop (item.position + 1))
  match p.right[item.position]? with
  | some x =>
      let vanishing ← if behind.nullable then ctx.isNullable x else .ok false
      return ⟨item.position = 0, false, p.layout, behind, vanishing, entryIndices (← heads) x⟩
  | none =>
      if item.position = p.right.size then return ⟨item.position = 0, true, p.layout, behind, true, []⟩
      else throw (.dotOutOfRange item.production item.position)

def Grammar.outlooks (g : Grammar) (ctx : Context) (state : State) : Array (Except Fault Outlook) :=
  let heads := g.heads state.items.toList
  state.items.map (g.outlook ctx heads)

end Lookahead
