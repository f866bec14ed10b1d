import Lookahead.Grammar.Definition

set_option autoImplicit false

namespace Lookahead

inductive Example where
  | expression
  | arithmetic
  | withNullable
  | nullableTail
  | composed
  | fig1
  | fig5
  | fig6
deriving DecidableEq, Repr

namespace Example

def all : List Example :=
  [expression, arithmetic, withNullable, nullableTail, composed, fig1, fig5, fig6]

def name : Example → String
  | expression => "expression"
  | arithmetic => "arithmetic"
  | withNullable => "with_nullable"
  | nullableTail => "nullable_tail"
  | composed => "composed"
  | fig1 => "fig1"
  | fig5 => "fig5"
  | fig6 => "fig6"

def ofName? (name : String) : Option Example := all.find? (·.name = name)

def t (index : Nat) : Symbol := .terminal ⟨index⟩

def n (index : Nat) : Symbol := .nonterminal ⟨index⟩

def rules (layout : List Layout) (ps : List (Nat × List Symbol)) : List Step :=
  ps.map fun (left, right) => .production layout ⟨left⟩ right.toArray

def steps : Example → List Step
  | expression =>
      [.layout "WS"]
      ++ ["`+`", "ID"].map .terminal
      ++ ["S", "E", "T"].map .nonterminal
      ++ [.startSymbol ⟨1⟩, .startLayout [⟨0⟩]]
      ++ rules [⟨0⟩] [
        (1, [n 2]),
        (2, [n 2, t 1, n 3]),
        (2, [n 3]),
        (3, [t 2])]
  | arithmetic =>
      ["WS", "COMMENT"].map .layout
      ++ ["`(`", "`)`", "`+`", "`-`", "`*`", "`/`", "NUM"].map .terminal
      ++ ["expr", "term", "factor", "atom"].map .nonterminal
      ++ [.startSymbol ⟨1⟩, .startLayout [⟨0⟩, ⟨1⟩]]
      ++ rules [⟨0⟩, ⟨1⟩] [
        (1, [n 1, t 3, n 2]),
        (1, [n 1, t 4, n 2]),
        (1, [n 2]),
        (2, [n 2, t 5, n 3]),
        (2, [n 2, t 6, n 3]),
        (2, [n 3]),
        (3, [t 4, n 3]),
        (3, [n 4]),
        (4, [t 7]),
        (4, [t 1, n 1, t 2])]
  | withNullable =>
      [.layout "WS"]
      ++ ["`(`", "`)`", "`+`", "`a`", "NUM"].map .terminal
      ++ ["expr", "term", "nullable"].map .nonterminal
      ++ [.startLayout [⟨0⟩]]
      ++ rules [⟨0⟩] [
        (1, [n 1, t 3, n 2, n 3]),
        (1, [n 2]),
        (2, [t 4]),
        (2, [t 1, n 1, n 3, t 2]),
        (2, [n 3, t 4]),
        (3, []),
        (3, [t 5])]
  | nullableTail =>
      ["b", "c", "d"].map .terminal
      ++ ["S", "A", "C"].map .nonterminal
      ++ [.startSymbol ⟨1⟩]
      ++ rules [] [
        (1, [n 2, t 3]),
        (2, [t 1, n 3]),
        (3, []),
        (3, [t 2])]
  | composed =>
      ["WS", "COMMENT"].map .layout
      ++ ["`let`", "IDENT", "`=`", "`;`", "`select`", "`,`"].map .terminal
      ++ ["stmts", "stmt", "expr", "query", "columns"].map .nonterminal
      ++ [.startSymbol ⟨1⟩, .startLayout [⟨0⟩]]
      ++ rules [⟨0⟩] [
        (1, [n 1, n 2]),
        (1, []),
        (2, [t 1, t 2, t 3, n 3, t 4]),
        (3, [t 2]),
        (3, [n 4])]
      ++ rules [⟨1⟩] [
        (4, [t 5, n 5]),
        (5, [n 5, t 6, t 2]),
        (5, [t 2])]
  | fig1 =>
      ["a", "b"].map .terminal
      ++ ["S", "A"].map .nonterminal
      ++ [.startSymbol ⟨1⟩]
      ++ rules [] [
        (1, [t 1, n 2, t 1]),
        (1, [t 2, n 2, t 2]),
        (2, [t 1]),
        (2, [t 1, t 1])]
  | fig5 =>
      ["a", "b", "c"].map .terminal
      ++ ["S", "A", "B", "C", "D", "E"].map .nonterminal
      ++ [.startSymbol ⟨1⟩]
      ++ rules [] [
        (1, [t 1, n 2, n 3, t 1]),
        (1, [t 2, n 2, n 3, t 2]),
        (2, [t 1, n 4, n 5, n 6]),
        (3, [t 3]),
        (3, []),
        (4, [n 5]),
        (5, [t 1]),
        (6, [t 1]),
        (6, [])]
  | fig6 =>
      ["a", "b"].map .terminal
      ++ ["S", "A", "B", "C", "D"].map .nonterminal
      ++ [.startSymbol ⟨1⟩]
      ++ rules [] [
        (1, [t 1, n 2, t 1]),
        (1, [t 1, t 1, t 2]),
        (1, [t 2, n 2, t 2]),
        (2, [n 3, n 4]),
        (3, [t 1]),
        (4, [n 5]),
        (5, [])]

end Example

end Lookahead
