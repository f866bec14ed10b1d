import Lookahead.Proofs.Correspondence
import Lookahead.Proofs.Declaration
import Lookahead.Proofs.Table
import Mathlib.Data.Finset.Basic
import Mathlib.Logic.Equiv.Basic

set_option autoImplicit false

namespace Lookahead

-- Names tell symbols apart within one kind only.
inductive SymbolName where
  | terminal (name : String)
  | nonterminal (name : String)
deriving DecidableEq, Repr

structure Reading where
  left : Option SymbolName
  right : List (Option SymbolName)
  layout : Finset String
deriving DecidableEq

def BitSet.names {α : Type} [Indexed α] (set : BitSet α) (names : Array String) : Finset String :=
  (set.toList.filterMap fun a => names[Indexed.index a]?).toFinset

namespace Grammar

def readSymbol (g : Grammar) : Symbol → Option SymbolName
  | .terminal t => g.terminals[t.index]?.map .terminal
  | .nonterminal n => g.nonterminals[n.index]?.map .nonterminal

def readProduction (g : Grammar) (p : Production) : Reading :=
  ⟨g.readSymbol (.nonterminal p.left), p.right.toList.map g.readSymbol, p.layout.names g.layouts⟩

def readItem (g : Grammar) (item : Item) : Option (Reading × Nat) :=
  (g.production? item.production).map fun p => (g.readProduction p, item.position)

def readState (g : Grammar) (a : Automaton) (s : Nat) : Set (Option (Reading × Nat)) :=
  {reading | ∃ i item, a.item s i = .ok item ∧ g.readItem item = reading}

structure SameDeclarations (g h : Grammar) : Prop where
  terminals : g.terminals.toList.Perm h.terminals.toList
  layouts : g.layouts.toList.Perm h.layouts.toList
  nonterminals : g.nonterminals.toList.Perm h.nonterminals.toList
  rules : (g.rules.toList.map g.readProduction).Perm (h.rules.toList.map h.readProduction)
  startSymbol : g.readSymbol (.nonterminal g.startSymbol) = h.readSymbol (.nonterminal h.startSymbol)
  startLayout : g.startLayout.names g.layouts = h.startLayout.names h.layouts

theorem sameDeclarations_of_define {steps steps' : List Step} {g h : Grammar} (defined : define steps = .ok g)
    (defined' : define steps' = .ok h)
    (terminals : (steps.filterMap Step.terminal?).Perm (steps'.filterMap Step.terminal?))
    (layouts : (steps.filterMap Step.layout?).Perm (steps'.filterMap Step.layout?))
    (nonterminals : (steps.filterMap Step.nonterminal?).Perm (steps'.filterMap Step.nonterminal?))
    (rules : ((steps.filterMap Step.production?).map g.readProduction).Perm
      ((steps'.filterMap Step.production?).map h.readProduction))
    (startSymbol : g.readSymbol (.nonterminal g.startSymbol) = h.readSymbol (.nonterminal h.startSymbol))
    (startLayout : g.startLayout.names g.layouts = h.startLayout.names h.layouts) : SameDeclarations g h := by
  have here := defined_of_define steps defined
  have there := defined_of_define steps' defined'
  refine ⟨?_, ?_, ?_, ?_, startSymbol, startLayout⟩
  · rw [here.terminals, there.terminals]
    exact terminals.cons _
  · rw [here.layouts, there.layouts]
    exact layouts
  · rw [here.nonterminals, there.nonterminals]
    exact nonterminals.cons _
  · rw [here.rules, there.rules]
    exact rules

structure Coincide (g h : Grammar) (a b : Automaton) (table table' : Table) (f : Nat → Nat) : Prop where
  bijective : Set.BijOn f (Set.Iio a.size) (Set.Iio b.size)
  start : f 0 = 0
  items : ∀ s, s < a.size → g.readState a s = h.readState b (f s)
  transitions : ∀ s t x y name, s < a.size → t < a.size → g.readSymbol x = some name → h.readSymbol y = some name →
    (a.transition s x = .ok t ↔ b.transition (f s) y = .ok (f t))
  lookaheads : ∀ s i j item item', a.item s i = .ok item → b.item (f s) j = .ok item' → g.readItem item = h.readItem item' →
    ∃ set set', table.lookahead s i = .ok set ∧ table'.lookahead (f s) j = .ok set' ∧
      set.names g.terminals = set'.names h.terminals
  layouts : ∀ s, s < a.size →
    ∃ set set', table.layout s = .ok set ∧ table'.layout (f s) = .ok set' ∧ set.names g.layouts = set'.names h.layouts

structure SameBeginnings (g h : Grammar) (x y : Symbol) : Prop where
  nullable : ∃ null, g.context.isNullable x = .ok null ∧ h.context.isNullable y = .ok null
  first : ∃ set set', g.context.first x = .ok set ∧ h.context.first y = .ok set' ∧
    set.names g.terminals = set'.names h.terminals

end Grammar

def behindFirst (σ : Equiv.Perm Nat) : Equiv.Perm Nat where
  toFun
    | 0 => 0
    | i + 1 => σ i + 1
  invFun
    | 0 => 0
    | i + 1 => σ.symm i + 1
  left_inv i := by cases i <;> simp
  right_inv i := by cases i <;> simp

theorem exists_places {α : Type} {as bs : List α} (same : as.Perm bs) : ∃ σ : Equiv.Perm Nat, ∀ i, bs[σ i]? = as[i]? := by
  induction same with
  | nil => exact ⟨.refl Nat, fun i => rfl⟩
  | cons a _ ih =>
      obtain ⟨σ, places⟩ := ih
      refine ⟨behindFirst σ, fun i => ?_⟩
      cases i with
      | zero => rfl
      | succ i => exact places i
  | swap a b rest =>
      refine ⟨Equiv.swap 0 1, fun i => ?_⟩
      cases i with
      | zero => simp
      | succ i =>
          cases i with
          | zero => simp
          | succ i => rw [Equiv.swap_apply_of_ne_of_ne (by simp) (by simp)]; rfl
  | trans _ _ first second =>
      obtain ⟨σ, places⟩ := first
      obtain ⟨τ, places'⟩ := second
      exact ⟨σ.trans τ, fun i => (places' (σ i)).trans (places i)⟩

theorem Names.index_unique {reserved : List String} {names : Array String} (orderly : Names reserved names) {i j : Nat}
    {name : String} (here : names[i]? = some name) (there : names[j]? = some name) : i = j := by
  have found := (orderly.findIdx?_eq_some_iff name i).mpr here
  rw [(orderly.findIdx?_eq_some_iff name j).mpr there, Option.some.injEq] at found
  exact found.symm

theorem Names.first_reserved {name : String} {names : Array String} (orderly : Names [name] names) : names[0]? = some name := by
  obtain ⟨rest, split⟩ := orderly.first
  rw [← Array.getElem?_toList, ← split]
  rfl

namespace BitSet

variable {α : Type} [Indexed α]

theorem mem_names {set : BitSet α} {names : Array String} {name : String} :
    name ∈ set.names names ↔ ∃ a ∈ set, names[Indexed.index a]? = some name := by
  simp [BitSet.names]

theorem names_eq {rename : α → α} {names names' : Array String} {set set' : BitSet α} (onto : Function.Surjective rename)
    (kept : ∀ a, names'[Indexed.index (rename a)]? = names[Indexed.index a]?) (same : ∀ a, a ∈ set ↔ rename a ∈ set') :
    set.names names = set'.names names' := by
  ext name
  rw [mem_names, mem_names]
  constructor
  · intro ⟨a, member, named⟩
    exact ⟨rename a, (same a).mp member, by rw [kept, named]⟩
  · intro ⟨b, member, named⟩
    obtain ⟨a, rfl⟩ := onto b
    exact ⟨a, (same a).mpr member, by rw [← kept, named]⟩

end BitSet

namespace Grammar

theorem exists_reading_iff {g : Grammar} {x : Symbol} : (∃ name, g.readSymbol x = some name) ↔ g.Knows x := by
  cases x with
  | terminal t => simp [readSymbol, Knows, Array.getElem?_eq_some_iff]
  | nonterminal n => simp [readSymbol, Knows, Array.getElem?_eq_some_iff]

theorem Accepted.symbol_unique {g : Grammar} (accepted : g.Accepted) {x y : Symbol} {name : SymbolName}
    (here : g.readSymbol x = some name) (there : g.readSymbol y = some name) : x = y := by
  cases x with
  | terminal t =>
      obtain ⟨name, atT, rfl⟩ := Option.map_eq_some_iff.mp here
      cases y with
      | terminal u =>
          obtain ⟨other, atU, same⟩ := Option.map_eq_some_iff.mp there
          obtain rfl := SymbolName.terminal.inj same
          have index := accepted.distinct.terminals.index_unique atT atU
          cases t
          cases u
          exact congrArg _ (congrArg _ index)
      | nonterminal n =>
          obtain ⟨_, -, same⟩ := Option.map_eq_some_iff.mp there
          cases same
  | nonterminal n =>
      obtain ⟨name, atN, rfl⟩ := Option.map_eq_some_iff.mp here
      cases y with
      | terminal u =>
          obtain ⟨_, -, same⟩ := Option.map_eq_some_iff.mp there
          cases same
      | nonterminal m =>
          obtain ⟨other, atM, same⟩ := Option.map_eq_some_iff.mp there
          obtain rfl := SymbolName.nonterminal.inj same
          have index := accepted.distinct.nonterminals.index_unique atN atM
          cases n
          cases m
          exact congrArg _ (congrArg _ index)

theorem Accepted.layout_unique {g : Grammar} (accepted : g.Accepted) {l m : Layout} {name : String}
    (here : g.layouts[l.index]? = some name) (there : g.layouts[m.index]? = some name) : l = m := by
  have index := accepted.distinct.layouts.index_unique here there
  cases l
  cases m
  exact congrArg _ index

structure KeepsNames (ρ : Renaming) (g h : Grammar) : Prop where
  terminal : ∀ t, h.terminals[(ρ.terminal t).index]? = g.terminals[t.index]?
  layout : ∀ l, h.layouts[(ρ.layout l).index]? = g.layouts[l.index]?
  nonterminal : ∀ n, h.nonterminals[(ρ.nonterminal n).index]? = g.nonterminals[n.index]?

section

variable {ρ : Renaming} {g h : Grammar} (keeps : KeepsNames ρ g h)
include keeps

theorem KeepsNames.symbol (x : Symbol) : h.readSymbol (ρ.symbol x) = g.readSymbol x := by
  cases x with
  | terminal t => exact congrArg (Option.map SymbolName.terminal) (keeps.terminal t)
  | nonterminal n => exact congrArg (Option.map SymbolName.nonterminal) (keeps.nonterminal n)

theorem KeepsNames.layouts {set set' : LayoutSet} (same : ∀ l, l ∈ set ↔ ρ.layout l ∈ set') :
    set.names g.layouts = set'.names h.layouts :=
  BitSet.names_eq (fun l => ⟨ρ.symm.layout l, ρ.layout_symm l⟩) keeps.layout same

theorem KeepsNames.terminals {set set' : TerminalSet} (same : ∀ t, t ∈ set ↔ ρ.terminal t ∈ set') :
    set.names g.terminals = set'.names h.terminals :=
  BitSet.names_eq (fun t => ⟨ρ.symm.terminal t, ρ.terminal_symm t⟩) keeps.terminal same

theorem KeepsNames.readProduction {p q : Production} (renames : ρ.Renames p q) : g.readProduction p = h.readProduction q := by
  have right : h.readSymbol ∘ ρ.symbol = g.readSymbol := funext keeps.symbol
  rw [Grammar.readProduction, Grammar.readProduction, renames.left, renames.right, Renaming.word, List.map_map, right,
    keeps.layouts renames.layout]
  exact congrArg (Reading.mk · _ _) (keeps.symbol _).symm

theorem KeepsNames.eq_symbol (accepted : h.Accepted) {x y : Symbol} {name : SymbolName} (here : g.readSymbol x = some name)
    (there : h.readSymbol y = some name) : y = ρ.symbol x :=
  accepted.symbol_unique there (by rw [keeps.symbol, here])

theorem KeepsNames.eq_word (accepted : h.Accepted) {γ δ : List Symbol} (known : ∀ x ∈ γ, g.Knows x)
    (same : δ.map h.readSymbol = γ.map g.readSymbol) : δ = ρ.word γ := by
  induction γ generalizing δ with
  | nil => exact List.map_eq_nil_iff.mp same
  | cons x γ ih =>
      cases δ with
      | nil => cases same
      | cons y δ =>
          obtain ⟨first, rest⟩ := List.cons.inj same
          obtain ⟨name, here⟩ := exists_reading_iff.mpr (known x List.mem_cons_self)
          have head := keeps.eq_symbol accepted here (first.trans here)
          have tail := ih (fun z member => known z (List.mem_cons_of_mem x member)) rest
          rw [head, tail]
          rfl

theorem KeepsNames.renames (accepted : g.Accepted) (accepted' : h.Accepted) (id id' : ProductionId) {p q : Production}
    (found : g.production? id = some p) (found' : h.production? id' = some q)
    (same : g.readProduction p = h.readProduction q) : ρ.Renames p q := by
  have wf := accepted.wellFormed
  obtain ⟨left, right, layout⟩ := Reading.mk.inj same
  refine ⟨?_, ?_, fun l => ⟨fun member => ?_, fun member => ?_⟩⟩
  · obtain ⟨name, here⟩ := exists_reading_iff.mpr (wf.knows_left found)
    exact Symbol.nonterminal.inj (keeps.eq_symbol accepted' here (left.symm.trans here))
  · exact keeps.eq_word accepted' (fun x member => wf.knows_right found (Array.mem_toList_iff.mp member)) right.symm
  · have here := Array.getElem?_eq_getElem (wf.knows_layout found member)
    have named : _ ∈ q.layout.names h.layouts := layout ▸ BitSet.mem_names.mpr ⟨l, member, here⟩
    obtain ⟨m, member', there⟩ := BitSet.mem_names.mp named
    rwa [accepted'.layout_unique there ((keeps.layout l).trans here)] at member'
  · have there := Array.getElem?_eq_getElem (accepted'.wellFormed.knows_layout found' member)
    have named : _ ∈ p.layout.names g.layouts := layout ▸ BitSet.mem_names.mpr ⟨_, member, there⟩
    obtain ⟨m, member', here⟩ := BitSet.mem_names.mp named
    rwa [accepted.layout_unique here ((keeps.layout l).symm.trans there)] at member'

theorem KeepsNames.readItem (renamed : Renamed ρ g h) {item : Item} (places : g.Places item) :
    g.readItem item = h.readItem (ρ.item item) := by
  obtain ⟨p, found, -⟩ := places
  obtain ⟨q, found', renames⟩ := renamed.production _ p found
  simp [Grammar.readItem, Renaming.item, found, found', keeps.readProduction renames]

theorem KeepsNames.eq_item (renamed : Renamed ρ g h) (accepted : g.Accepted) (accepted' : h.Accepted) {item item' : Item}
    (places : g.Places item) (same : g.readItem item = h.readItem item') : item' = ρ.item item := by
  obtain ⟨p, found, -⟩ := places
  obtain ⟨q, there, renames⟩ := renamed.production _ p found
  rw [Grammar.readItem, found, Option.map_some, Grammar.readItem] at same
  obtain ⟨q', there', reading⟩ := Option.map_eq_some_iff.mp same.symm
  obtain ⟨productions, positions⟩ := Prod.mk.inj reading
  have renames' := keeps.renames accepted accepted' _ _ found there' productions.symm
  have sides : q'.Same q :=
    ⟨renames'.left.trans renames.left.symm, Array.toList_inj.mp (renames'.right.trans renames.right.symm)⟩
  have ids := accepted'.wellFormed.eq_of_same accepted'.distinct there' there sides
  cases item'
  exact congrArg₂ Item.mk ids positions

end

theorem exists_renaming {g h : Grammar} (accepted : g.Accepted) (accepted' : h.Accepted) (same : SameDeclarations g h) :
    ∃ ρ, KeepsNames ρ g h ∧ Renamed ρ g h := by
  obtain ⟨terminals, atTerminal⟩ := exists_places same.terminals
  obtain ⟨layouts, atLayout⟩ := exists_places same.layouts
  obtain ⟨nonterminals, atNonterminal⟩ := exists_places same.nonterminals
  obtain ⟨rules, atRule⟩ := exists_places same.rules
  simp only [Array.getElem?_toList] at atTerminal atLayout atNonterminal
  simp only [List.getElem?_map, Array.getElem?_toList] at atRule
  let ρ : Renaming := ⟨terminals, layouts, nonterminals, rules⟩
  have keeps : KeepsNames ρ g h := ⟨fun t => atTerminal t.index, fun l => atLayout l.index, fun n => atNonterminal n.index⟩
  have endOfInput := accepted'.distinct.terminals.first_reserved
  have last : ρ.terminal .endOfInput = .endOfInput := by
    have here := (keeps.terminal .endOfInput).trans accepted.distinct.terminals.first_reserved
    exact congrArg Terminal.mk (accepted'.distinct.terminals.index_unique here endOfInput)
  have accept : g.readProduction g.accept = h.readProduction h.accept := by
    have start : g.readSymbol (.nonterminal .start) = h.readSymbol (.nonterminal .start) := by
      simp [readSymbol, Nonterminal.start, accepted.distinct.nonterminals.first_reserved,
        accepted'.distinct.nonterminals.first_reserved]
    have closing : g.readSymbol (.terminal .endOfInput) = h.readSymbol (.terminal .endOfInput) := by
      simp [readSymbol, Terminal.endOfInput, accepted.distinct.terminals.first_reserved, endOfInput]
    simp [readProduction, Grammar.accept, start, closing, same.startSymbol, same.startLayout]
  refine ⟨ρ, keeps, last, fun id p found => ?_, fun id q found => ?_⟩
  · cases id with
    | accept =>
        cases found
        exact ⟨h.accept, rfl, keeps.renames accepted accepted' .accept .accept rfl rfl accept⟩
    | rule i =>
        have here : g.rules[i]? = some p := found
        have read := atRule i
        rw [here, Option.map_some] at read
        obtain ⟨q, there, reading⟩ := Option.map_eq_some_iff.mp read
        exact ⟨q, there, keeps.renames accepted accepted' (.rule i) (.rule (rules i)) here there reading.symm⟩
  · cases id with
    | accept => exact ⟨g.accept, rfl⟩
    | rule i =>
        have there : h.rules[rules i]? = some q := found
        have read := atRule i
        rw [there, Option.map_some] at read
        obtain ⟨p, here, -⟩ := Option.map_eq_some_iff.mp read.symm
        exact ⟨p, here⟩

section

variable {ρ : Renaming} {g h : Grammar} {a b : Automaton} (keeps : KeepsNames ρ g h) (renamed : Renamed ρ g h)
  (accepted : g.Accepted) (accepted' : h.Accepted)
include keeps renamed accepted accepted'

theorem sameBeginnings {x y : Symbol} {name : SymbolName} (here : g.readSymbol x = some name)
    (there : h.readSymbol y = some name) : SameBeginnings g h x y := by
  obtain rfl := keeps.eq_symbol accepted' here there
  have known := exists_reading_iff.mp ⟨name, here⟩
  have known' := exists_reading_iff.mp ⟨name, there⟩
  obtain ⟨null, answer, vanishes⟩ := Context.isNullable_exact known
  obtain ⟨null', answer', vanishes'⟩ := Context.isNullable_exact known'
  obtain ⟨set, first, begins⟩ := Context.first_exact accepted.wellFormed known
  obtain ⟨set', first', begins'⟩ := Context.first_exact accepted'.wellFormed known'
  have same : null = null' := Bool.eq_iff_iff.mpr (vanishes.trans (renamed.vanishes_iff.trans vanishes'.symm))
  refine ⟨⟨null, answer, same ▸ answer'⟩, set, set', first, first', keeps.terminals fun t => ?_⟩
  rw [begins, begins']
  exact renamed.begins_iff

theorem coincide_of_paired (paired : Paired ρ a b g h) : ∃ table table' f, a.table g g.context = .ok table ∧
    b.table h h.context = .ok table' ∧ Coincide g h a b table table' f := by
  obtain ⟨table, ran, lookahead, layout⟩ := table_exact paired.wf paired.returned
  obtain ⟨table', ran', lookahead', layout'⟩ := table_exact paired.wf' paired.returned'
  obtain ⟨f, bijective, same⟩ := paired.exists_bijection
  refine ⟨table, table', f, ran, ran', bijective, ?_, fun s bound => ?_, fun s t x y name bound bound' here there => ?_,
    fun s i j item item' at' atJ reading => ?_, fun s bound => ?_⟩
  · have inside : 0 < a.size := by
      obtain ⟨state, found, -⟩ := Automaton.item_eq_ok_iff.mp (item_start paired.returned)
      exact (Array.getElem?_eq_some_iff.mp found).1
    exact paired.match_unique (same 0 inside) Paired.matches_start
  · ext reading
    constructor
    · intro ⟨i, item, at', read⟩
      obtain ⟨j, there, -⟩ := paired.exists_counterpart (same s bound) at'
      have kept := keeps.readItem renamed (item_places paired.returned paired.wf at')
      exact ⟨j, ρ.item item, there, kept.symm.trans read⟩
    · intro ⟨j, item, there, read⟩
      obtain ⟨i, at', -⟩ := paired.symm.exists_counterpart (same s bound).symm there
      have kept := keeps.readItem renamed (item_places paired.returned paired.wf at')
      rw [ρ.item_symm] at kept
      exact ⟨i, ρ.symm.item item, at', kept.trans read⟩
  · obtain rfl := keeps.eq_symbol accepted' here there
    constructor
    · intro step
      obtain ⟨v, step', target⟩ := paired.transition (same s bound) step
      rwa [paired.match_unique (same t bound') target]
    · intro step
      obtain ⟨u, step', target⟩ := paired.symm.transition (same s bound).symm step
      rw [ρ.symm_symbol] at step'
      rwa [paired.symm.match_unique (same t bound').symm target]
  · obtain rfl := keeps.eq_item renamed accepted accepted' (item_places paired.returned paired.wf at') reading
    obtain ⟨state, found, -⟩ := Automaton.item_eq_ok_iff.mp at'
    have states := same s (Array.getElem?_eq_some_iff.mp found).1
    obtain ⟨set, answer, exact⟩ := lookahead s i item at'
    obtain ⟨set', answer', exact'⟩ := lookahead' (f s) j _ atJ
    refine ⟨set, set', answer, answer', keeps.terminals fun t => ?_⟩
    rw [exact, exact']
    exact paired.mem_least_iff (.item s i (f s) j (.lookahead t) ⟨states, item, at', atJ⟩)
  · obtain ⟨state, found⟩ := paired.state_of_match (same s bound)
    obtain ⟨state', found'⟩ := paired.symm.state_of_match (same s bound).symm
    obtain ⟨set, answer, exact⟩ := layout s state found
    obtain ⟨set', answer', exact'⟩ := layout' (f s) state' found'
    refine ⟨set, set', answer, answer', keeps.layouts fun l => ?_⟩
    rw [exact, exact']
    exact paired.mem_least_iff (.state s (f s) l (same s bound))

end

theorem table_order_independent {g h : Grammar} {a b : Automaton} (accepted : g.Accepted) (accepted' : h.Accepted)
    (same : SameDeclarations g h) (returned : g.automaton = .ok a) (returned' : h.automaton = .ok b) :
    (∃ table table' f, a.table g g.context = .ok table ∧ b.table h h.context = .ok table' ∧
      Coincide g h a b table table' f) ∧
    ∀ x y name, g.readSymbol x = some name → h.readSymbol y = some name → SameBeginnings g h x y := by
  obtain ⟨ρ, keeps, renamed⟩ := exists_renaming accepted accepted' same
  refine ⟨?_, fun x y name => sameBeginnings keeps renamed accepted accepted'⟩
  exact coincide_of_paired keeps renamed accepted accepted'
    ⟨renamed, accepted.wellFormed, accepted'.wellFormed, returned, returned'⟩

-- The host language with everything declared the other way round.
def backwards : List Step :=
  ["COMMENT", "WS"].map .layout
  ++ ["`,`", "`select`", "`;`", "`=`", "IDENT", "`let`"].map .terminal
  ++ ["columns", "query", "expr", "stmt", "stmts"].map .nonterminal
  ++ [.startSymbol ⟨5⟩, .startLayout [⟨1⟩]]
  ++ Example.rules [⟨0⟩] [
    (1, [Example.t 5]),
    (1, [Example.n 1, Example.t 1, Example.t 5]),
    (2, [Example.t 2, Example.n 1])]
  ++ Example.rules [⟨1⟩] [
    (3, [Example.n 2]),
    (3, [Example.t 5]),
    (4, [Example.t 6, Example.t 5, Example.t 4, Example.n 3, Example.t 3]),
    (5, []),
    (5, [Example.n 5, Example.n 4])]

def composedBackwards : Grammar where
  terminals := #["#EOI", "`,`", "`select`", "`;`", "`=`", "IDENT", "`let`"]
  layouts := #["COMMENT", "WS"]
  nonterminals := #["#Start", "columns", "query", "expr", "stmt", "stmts"]
  rules := #[
    ⟨⟨1⟩, #[Example.t 5], {⟨0⟩}⟩,
    ⟨⟨1⟩, #[Example.n 1, Example.t 1, Example.t 5], {⟨0⟩}⟩,
    ⟨⟨2⟩, #[Example.t 2, Example.n 1], {⟨0⟩}⟩,
    ⟨⟨3⟩, #[Example.n 2], {⟨1⟩}⟩,
    ⟨⟨3⟩, #[Example.t 5], {⟨1⟩}⟩,
    ⟨⟨4⟩, #[Example.t 6, Example.t 5, Example.t 4, Example.n 3, Example.t 3], {⟨1⟩}⟩,
    ⟨⟨5⟩, #[], {⟨1⟩}⟩,
    ⟨⟨5⟩, #[Example.n 5, Example.n 4], {⟨1⟩}⟩]
  startSymbol := ⟨5⟩
  startLayout := {⟨1⟩}

theorem table_order_independent_composed : composed.Accepted ∧ composedBackwards.Accepted ∧
    SameDeclarations composed composedBackwards ∧ ∃ a b table table' f, composed.automaton = .ok a ∧
      composedBackwards.automaton = .ok b ∧ a.table composed composed.context = .ok table ∧
      b.table composedBackwards composedBackwards.context = .ok table' ∧
      Coincide composed composedBackwards a b table table' f ∧
      SameBeginnings composed composedBackwards (Example.n 3) (Example.n 3) := by
  have defined : define Example.composed.steps = .ok composed := by decide +kernel
  have defined' : define backwards = .ok composedBackwards := by decide +kernel
  have accepted : composedBackwards.Accepted := accepted_of_define backwards defined'
  have same : SameDeclarations composed composedBackwards :=
    sameDeclarations_of_define defined defined' (by decide +kernel) (by decide +kernel) (by decide +kernel)
      (by decide +kernel) (by decide +kernel) (by decide +kernel)
  obtain ⟨a, returned⟩ : ∃ a, composed.automaton = .ok a := exists_of_isOk (by decide +kernel)
  obtain ⟨b, returned'⟩ : ∃ b, composedBackwards.automaton = .ok b := exists_of_isOk (by decide +kernel)
  obtain ⟨⟨table, table', f, ran, ran', coincide⟩, beginnings⟩ :=
    table_order_independent composed_accepted accepted same returned returned'
  exact ⟨composed_accepted, accepted, same, a, b, table, table', f, returned, returned', ran, ran', coincide,
    beginnings _ _ (.nonterminal "expr") (by decide +kernel) (by decide +kernel)⟩

end Grammar

end Lookahead
