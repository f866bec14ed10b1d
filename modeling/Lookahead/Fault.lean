import Lookahead.Symbol

set_option autoImplicit false

namespace Lookahead

-- Too many states apart, no fault arises while a grammar is analysed with its own context and automaton. The others
-- meet those who ask for what is not there, or who combine parts of different grammars.
inductive Fault where
  | unexpectedSymbol (symbol : Symbol)
  | missingTransition (state : Nat) (symbol : Symbol)
  | tooManyStates
  | unnamedTerminal (t : Terminal)
  | unnamedLayout (l : Layout)
  | unnamedNonterminal (n : Nonterminal)
  | unknownProduction (id : ProductionId)
  | unknownState (state : Nat)
  | unknownItem (state item : Nat)
  | dotOutOfRange (id : ProductionId) (position : Nat)
  | startItemExpected
  | indexOutOfRange (index : Nat)
deriving DecidableEq, Repr

def Fault.message : Fault → String
  | .unexpectedSymbol symbol => "unexpected symbol: " ++ symbol.label
  | .missingTransition state symbol =>
      "missing transition: " ++ stateLabel state ++ " --(" ++ symbol.label ++ ")-->"
  | .tooManyStates => "too many LR(0) states"
  | .unnamedTerminal t => "no such terminal: " ++ t.label
  | .unnamedLayout l => "no such layout token: " ++ l.label
  | .unnamedNonterminal n => "no such nonterminal: " ++ n.label
  | .unknownProduction id => "no such production: " ++ id.label
  | .unknownState state => "no such state: " ++ stateLabel state
  | .unknownItem state item => "no item " ++ toString item ++ " in " ++ stateLabel state
  | .dotOutOfRange id position => "no dot position " ++ toString position ++ " in " ++ id.label
  | .startItemExpected => "the start state must begin with the item #Start -> . S #EOI"
  | .indexOutOfRange index => "index out of range: " ++ toString index

theorem bind_eq_ok_iff {ε α β : Type} {e : Except ε α} {f : α → Except ε β} {b : β} :
    e >>= f = .ok b ↔ ∃ a, e = .ok a ∧ f a = .ok b := by
  cases e with
  | error _ => simp [bind, Except.bind]
  | ok a => simp [bind, Except.bind]

theorem mapM_eq_map {ε α β : Type} {f : α → Except ε β} {h : α → β} (as : List α) (answers : ∀ a ∈ as, f a = .ok (h a)) :
    as.mapM f = .ok (as.map h) := by
  induction as with
  | nil => rfl
  | cons a rest ih =>
      rw [List.mapM_cons, answers a List.mem_cons_self, ih fun b member => answers b (List.mem_cons_of_mem a member)]
      rfl

end Lookahead
