import Lookahead.Grammar.Basic
import Lookahead.Numbering

set_option autoImplicit false

namespace Lookahead

def Symbol.isIn (nulls : BitSet Nonterminal) : Symbol → Bool
  | .terminal _ => false
  | .nonterminal n => n ∈ nulls

namespace Grammar

def addNullable (nulls : BitSet Nonterminal) (p : Production) : BitSet Nonterminal :=
  if p.right.all (Symbol.isIn nulls) then nulls.insert p.left else nulls

-- One pass over the productions, each profiting from those before it.
def nullablePass (g : Grammar) (nulls : BitSet Nonterminal) : BitSet Nonterminal :=
  g.productions.foldl addNullable nulls

def openProductions (g : Grammar) (nulls : BitSet Nonterminal) : Nat :=
  g.productions.countP fun p => p.left ∉ nulls

theorem subset_addNullable (nulls : BitSet Nonterminal) (p : Production) : nulls ⊆ addNullable nulls p := by
  intro n member
  unfold addNullable
  split
  · exact BitSet.mem_insert.mpr (.inl member)
  · exact member

theorem subset_foldl_addNullable (ps : List Production) (nulls : BitSet Nonterminal) :
    nulls ⊆ ps.foldl addNullable nulls := by
  induction ps generalizing nulls with
  | nil => exact fun _ => id
  | cons p ps ih => exact fun n member => ih _ n (subset_addNullable nulls p n member)

theorem left_of_mem_foldl_addNullable (ps : List Production) (nulls : BitSet Nonterminal) (n : Nonterminal)
    (member : n ∈ ps.foldl addNullable nulls) : n ∈ nulls ∨ ∃ p ∈ ps, p.left = n := by
  induction ps generalizing nulls with
  | nil => exact .inl member
  | cons p ps ih =>
      rcases ih _ member with old | ⟨q, among, left⟩
      · unfold addNullable at old
        split at old
        · exact (BitSet.mem_insert.mp old).imp id fun same => ⟨p, by simp, same.symm⟩
        · exact .inl old
      · exact .inr ⟨q, by simp [among], left⟩

theorem countP_lt_countP {α : Type} (p q : α → Bool) (as : List α) (weaker : ∀ a ∈ as, p a → q a)
    (a : α) (member : a ∈ as) (failing : p a = false) (holding : q a = true) : as.countP p < as.countP q := by
  induction as with
  | nil => simp at member
  | cons b as ih =>
      have bound := List.countP_mono_left fun c among => weaker c (List.mem_cons_of_mem b among)
      have here := weaker b List.mem_cons_self
      rw [List.countP_cons, List.countP_cons]
      rcases List.mem_cons.mp member with rfl | later
      · simp [failing, holding]
        omega
      · have := ih (fun c among => weaker c (List.mem_cons_of_mem b among)) later
        by_cases atB : p b = true
        · simp [atB, here atB, this]
        · simp [atB]
          omega

theorem openProductions_nullablePass_lt (g : Grammar) (nulls : BitSet Nonterminal)
    (grown : ¬ g.nullablePass nulls ⊆ nulls) :
    g.openProductions (g.nullablePass nulls) < g.openProductions nulls := by
  have ⟨n, fresh, old⟩ : ∃ n, n ∈ g.nullablePass nulls ∧ n ∉ nulls := by
    simpa [HasSubset.Subset] using grown
  obtain ⟨p, among, left⟩ := (left_of_mem_foldl_addNullable _ _ n fresh).resolve_left old
  refine countP_lt_countP _ _ _ (fun q _ absent => ?_) p among (by simp [left, fresh]) (by simp [left, old])
  simp only [decide_eq_true_eq] at absent ⊢
  exact fun present => absent (subset_foldl_addNullable _ _ _ present)

def nullableFrom (g : Grammar) (nulls : BitSet Nonterminal) : BitSet Nonterminal :=
  if g.nullablePass nulls ⊆ nulls then nulls else nullableFrom g (g.nullablePass nulls)
termination_by g.openProductions nulls
decreasing_by exact openProductions_nullablePass_lt g nulls (by assumption)

def nullable (g : Grammar) : BitSet Nonterminal := g.nullableFrom ∅

-- The symbols at the beginning of a right side, up to and including the first that is not nullable.
def leading (nulls : BitSet Nonterminal) : List Symbol → List Symbol
  | [] => []
  | x :: rest => x :: if x.isIn nulls then leading nulls rest else []

def leadsTo (g : Grammar) (nulls : BitSet Nonterminal) : Symbol → List Symbol
  | .terminal _ => []
  | .nonterminal n =>
      (g.productions.filter fun p => p.left = n).flatMap fun p => leading nulls p.right.toList

def leads (g : Grammar) (nulls : BitSet Nonterminal) (x : Symbol) : Numbering Symbol :=
  .reach (g.leadsTo nulls) (g.terminals.size + g.nonterminals.size) [x]

end Grammar

def Symbol.terminal? : Symbol → Option Terminal
  | .terminal t => some t
  | .nonterminal _ => none

def Grammar.firstOf (g : Grammar) (nulls : BitSet Nonterminal) (n : Nonterminal) : TerminalSet :=
  .ofList ((g.leads nulls (.nonterminal n)).toList.filterMap Symbol.terminal?)

structure Context where
  terminals : Nat
  nullable : BitSet Nonterminal
  firsts : Array TerminalSet

structure Prospect where
  first : TerminalSet
  nullable : Bool
deriving DecidableEq

def Grammar.context (g : Grammar) : Context :=
  let nulls := g.nullable
  ⟨g.terminals.size, nulls, ((List.range g.nonterminals.size).map fun i => g.firstOf nulls ⟨i⟩).toArray⟩

namespace Context

def first (ctx : Context) (x : Symbol) : Except Fault TerminalSet :=
  match x with
  | .terminal t => if t.index < ctx.terminals then .ok {t} else .error (.unexpectedSymbol x)
  | .nonterminal n =>
      match ctx.firsts[n.index]? with
      | some set => .ok set
      | none => .error (.unexpectedSymbol x)

def isNullable (ctx : Context) (x : Symbol) : Except Fault Bool :=
  match x with
  | .terminal t => if t.index < ctx.terminals then .ok false else .error (.unexpectedSymbol x)
  | .nonterminal n =>
      if n.index < ctx.firsts.size then .ok (n ∈ ctx.nullable) else .error (.unexpectedSymbol x)

def prospect (ctx : Context) : List Symbol → Except Fault Prospect
  | [] => .ok ⟨∅, true⟩
  | x :: rest => do
      let first ← ctx.first x
      if ← ctx.isNullable x then
        let behind ← ctx.prospect rest
        return ⟨first ∪ behind.first, behind.nullable⟩
      else
        return ⟨first, false⟩

end Context

end Lookahead
