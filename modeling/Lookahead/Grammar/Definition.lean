import Lookahead.Grammar.Basic

set_option autoImplicit false

namespace Lookahead

inductive DefinitionError where
  | duplicateSymbol (name : String)
  | duplicateProduction (left : String)
  | undefinedSymbol (symbol : Symbol)
  | undefinedLayout (layout : Layout)
  | emptyNonterminals
  | tooManySymbols
deriving DecidableEq, Repr

def DefinitionError.message : DefinitionError → String
  | .duplicateSymbol name => "the symbol `" ++ name ++ "' has already been declared"
  | .duplicateProduction left => "duplicate production rule for `" ++ left ++ "'"
  | .undefinedSymbol symbol => "undefined symbol: " ++ symbol.label
  | .undefinedLayout layout => "undefined symbol: " ++ layout.label
  | .emptyNonterminals => "empty nonterminal symbols"
  | .tooManySymbols => "too many symbols or productions"

inductive Step where
  | terminal (name : String)
  | layout (name : String)
  | nonterminal (name : String)
  | production (layout : List Layout) (left : Nonterminal) (right : Array Symbol)
  | startSymbol (n : Nonterminal)
  | startLayout (layout : List Layout)
deriving DecidableEq

inductive Declared where
  | terminal (t : Terminal)
  | layout (l : Layout)
  | nonterminal (n : Nonterminal)
  | production (id : ProductionId)
  | nothing
deriving DecidableEq, Repr

structure Definition where
  terminals : Array String
  layouts : Array String
  nonterminals : Array String
  rules : Array Production
  startSymbol : Option Nonterminal
  startLayout : LayoutSet
deriving DecidableEq

namespace Definition

def empty : Definition where
  terminals := #["#EOI"]
  layouts := #[]
  nonterminals := #["#Start"]
  rules := #[]
  startSymbol := none
  startLayout := ∅

def nameLimit : Nat := 65535

def ruleLimit : Nat := 65534

-- The reserved symbols are never declared, so no step may use them.
def Declares (d : Definition) : Symbol → Prop
  | .terminal t => t ≠ .endOfInput ∧ t.index < d.terminals.size
  | .nonterminal n => n ≠ .start ∧ n.index < d.nonterminals.size

instance (d : Definition) : DecidablePred d.Declares
  | .terminal t => inferInstanceAs (Decidable (t ≠ .endOfInput ∧ t.index < d.terminals.size))
  | .nonterminal n => inferInstanceAs (Decidable (n ≠ .start ∧ n.index < d.nonterminals.size))

def DeclaresLayout (d : Definition) (l : Layout) : Prop := l.index < d.layouts.size

instance (d : Definition) : DecidablePred d.DeclaresLayout :=
  fun l => inferInstanceAs (Decidable (l.index < d.layouts.size))

def nameBreach? (names : Array String) (name : String) : Option DefinitionError :=
  if name ∈ names then some (.duplicateSymbol name)
  else if nameLimit ≤ names.size then some .tooManySymbols
  else none

def nonterminalBreach? (d : Definition) (n : Nonterminal) : Option DefinitionError :=
  if d.Declares (.nonterminal n) then none else some (.undefinedSymbol (.nonterminal n))

-- The first thing wrong with a production: its left side, then its right side from left to right, then its
-- layout tokens by number, then its being there already.
def productionBreach? (d : Definition) (p : Production) : Option DefinitionError :=
  (d.nonterminalBreach? p.left).or <|
  ((p.right.find? fun symbol => ¬ d.Declares symbol).map .undefinedSymbol).or <|
  ((p.layout.toList.find? fun l => ¬ d.DeclaresLayout l).map .undefinedLayout).or <|
  if d.rules.any fun q => q.left = p.left ∧ q.right = p.right then
    some (.duplicateProduction (d.nonterminals.getD p.left.index ""))
  else if ruleLimit ≤ d.rules.size then some .tooManySymbols
  else none

def admitStartLayout (d : Definition) : List Layout → Definition × Except DefinitionError Unit
  | [] => (d, .ok ())
  | l :: rest =>
      if d.DeclaresLayout l then admitStartLayout { d with startLayout := d.startLayout.insert l } rest
      else (d, .error (.undefinedLayout l))

-- A step that breaks a rule fails and leaves the definition as it was, but for a start layout, which keeps the
-- tokens that it lists before its first undeclared one. What a definition is like after it has run out of numbers is
-- left aside: it is taken to be as it was, though the entry that found no number may have been put in by then.
def apply (d : Definition) : Step → Definition × Except DefinitionError Declared
  | .terminal name =>
      match nameBreach? d.terminals name with
      | some e => (d, .error e)
      | none => ({ d with terminals := d.terminals.push name }, .ok (.terminal ⟨d.terminals.size⟩))
  | .layout name =>
      match nameBreach? d.layouts name with
      | some e => (d, .error e)
      | none => ({ d with layouts := d.layouts.push name }, .ok (.layout ⟨d.layouts.size⟩))
  | .nonterminal name =>
      match nameBreach? d.nonterminals name with
      | some e => (d, .error e)
      | none => ({ d with nonterminals := d.nonterminals.push name },
          .ok (.nonterminal ⟨d.nonterminals.size⟩))
  | .production layout left right =>
      let p : Production := ⟨left, right, .ofList layout⟩
      match d.productionBreach? p with
      | some e => (d, .error e)
      | none => ({ d with rules := d.rules.push p }, .ok (.production (.rule d.rules.size)))
  | .startSymbol n =>
      match d.nonterminalBreach? n with
      | some e => (d, .error e)
      | none => ({ d with startSymbol := some n }, .ok .nothing)
  | .startLayout layout =>
      let (d', outcome) := d.admitStartLayout layout
      (d', outcome.map fun _ => .nothing)

def start? (d : Definition) : Option Nonterminal :=
  d.startSymbol.or (if 1 < d.nonterminals.size then some ⟨1⟩ else none)

def finish (d : Definition) : Except DefinitionError Grammar :=
  match d.start? with
  | some start => .ok ⟨d.terminals, d.layouts, d.nonterminals, d.rules, start, d.startLayout⟩
  | none => .error .emptyNonterminals

def applyAll (d : Definition) : List Step → Definition × List (Except DefinitionError Declared)
  | [] => (d, [])
  | step :: rest =>
      let (d', outcome) := d.apply step
      let (d'', outcomes) := applyAll d' rest
      (d'', outcome :: outcomes)

def applyUntilError (d : Definition) :
    List Step → Except DefinitionError Definition × List (Except DefinitionError Declared)
  | [] => (.ok d, [])
  | step :: rest =>
      match d.apply step with
      | (_, .error e) => (.error e, [.error e])
      | (d', .ok declared) =>
          let (result, outcomes) := applyUntilError d' rest
          (result, .ok declared :: outcomes)

end Definition

def Grammar.define (steps : List Step) : Except DefinitionError Grammar := do
  (← (Definition.empty.applyUntilError steps).1).finish

end Lookahead
