import Lookahead.Context

set_option autoImplicit false

namespace Lookahead

-- The passes come to an end, after this many of them and in this result.
inductive Repeats {α : Type} (pass : α → Except Fault (α × Bool)) : (passes : Nat) → α → α → Prop where
  | stop (a b : α) (ran : pass a = .ok (b, false)) : Repeats pass 1 a b
  | again (passes : Nat) (a b c : α) (ran : pass a = .ok (b, true)) (rest : Repeats pass passes b c) :
      Repeats pass (passes + 1) a c

namespace Grammar

def markNullable (state : BitSet Nonterminal × Bool) (p : Production) : BitSet Nonterminal × Bool :=
  if p.right.all (Symbol.isIn state.1) then (state.1.insert p.left, state.2 || decide (p.left ∉ state.1)) else state

def markPass (g : Grammar) (nulls : BitSet Nonterminal) : Except Fault (BitSet Nonterminal × Bool) :=
  .ok (g.productions.foldl markNullable (nulls, false))

end Grammar

structure Constraint where
  whole : Nonterminal
  part : Symbol
deriving DecidableEq, Repr

-- A constraint between a nonterminal and itself would ask for nothing.
def Production.constraints (nulls : BitSet Nonterminal) (p : Production) : List Constraint :=
  ((Grammar.leading nulls p.right.toList).filter (· ≠ .nonterminal p.left)).map fun x => ⟨p.left, x⟩

def lookupFirst (firsts : Array TerminalSet) : Symbol → Except Fault TerminalSet
  | .terminal t => .ok {t}
  | .nonterminal n =>
      match firsts[n.index]? with
      | some set => .ok set
      | none => .error (.unnamedNonterminal n)

def Constraint.enforce (state : Array TerminalSet × Bool) (c : Constraint) : Except Fault (Array TerminalSet × Bool) := do
  let part ← lookupFirst state.1 c.part
  let whole ← lookupFirst state.1 (.nonterminal c.whole)
  return (state.1.setIfInBounds c.whole.index (whole ∪ part), state.2 || decide (¬ part ⊆ whole))

namespace Grammar

variable (g : Grammar)

def constraints (nulls : BitSet Nonterminal) : List Constraint := g.productions.flatMap (·.constraints nulls)

def solvePass (nulls : BitSet Nonterminal) (firsts : Array TerminalSet) : Except Fault (Array TerminalSet × Bool) :=
  (g.constraints nulls).foldlM Constraint.enforce (firsts, false)

def noFirsts : Array TerminalSet := Array.replicate g.nonterminals.size ∅

end Grammar

end Lookahead
