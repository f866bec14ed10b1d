import Lookahead.Proofs.Activity

set_option autoImplicit false

namespace Lookahead

namespace Numbering

variable {α : Type} [Ord α] [Std.TransOrd α] [Std.LawfulEqOrd α]

theorem expand_congr {next next' : α → List α} {limit limit' : Nat} (s : Numbering α) (i : Nat)
    (small : (expand next limit s i).size ≤ limit) (room : limit ≤ limit')
    (agree : ∀ a ∈ (expand next limit s i).toList, next' a = next a) : expand next' limit' s i = expand next limit s i := by
  induction s, i using expand.induct next limit with
  | case1 s i bound ih =>
      have asked : expand next limit s i = expand next limit (s.addAll (next s.values[i])) (i + 1) := by
        rw [expand, dif_pos bound]
      rw [asked] at small agree ⊢
      have member : s.values[i] ∈ (expand next limit (s.addAll (next s.values[i])) (i + 1)).toList :=
        (prefix_expand next limit _ _).subset ((prefix_addAll s _).subset (by simp [toList]))
      rw [expand, dif_pos ⟨bound.1, bound.2.trans room⟩, agree _ member]
      exact ih small agree
  | case2 s i bound =>
      have ended : expand next limit s i = s := by rw [expand, dif_neg bound]
      rw [ended] at small ⊢
      rw [expand, dif_neg fun inside => bound ⟨inside.1, small⟩]

end Numbering

namespace Grammar

-- Behind the productions of the first grammar, the second has only such as the first has no use for.
structure ExtendedBy (g h : Grammar) : Prop where
  startSymbol : h.startSymbol = g.startSymbol
  startLayout : h.startLayout = g.startLayout
  nonterminals : g.nonterminals.size ≤ h.nonterminals.size
  rules : g.rules.toList <+: h.rules.toList
  aside : ∀ i p, g.rules.size ≤ i → h.rules[i]? = some p → ¬ g.Reachable p.left

def Takes (g : Grammar) (item : Item) : Prop := ∃ p, g.production? item.production = some p ∧ g.InUse p.left

section

variable {g h : Grammar} (extended : g.ExtendedBy h)
include extended

theorem ExtendedBy.accept : h.accept = g.accept := by
  rw [Grammar.accept, extended.startSymbol, extended.startLayout, Grammar.accept]

theorem ExtendedBy.rule {i : Nat} (bound : i < g.rules.size) : h.rules[i]? = g.rules[i]? := by
  obtain ⟨rest, split⟩ := extended.rules
  rw [← Array.getElem?_toList, ← split, List.getElem?_append_left bound, Array.getElem?_toList]

theorem ExtendedBy.production {id : ProductionId} {p : Production} (found : g.production? id = some p) :
    h.production? id = some p := by
  cases id with
  | rule i => exact (extended.rule (Array.getElem?_eq_some_iff.mp found).1).trans found
  | accept => exact (congrArg some extended.accept).trans found

section

variable (wf' : h.WellFormed)
include wf'

theorem ExtendedBy.production_of_inUse {id : ProductionId} {p : Production} (found : h.production? id = some p)
    (used : g.InUse p.left) : g.production? id = some p := by
  cases id with
  | rule i =>
      by_cases old : i < g.rules.size
      · exact (extended.rule old).symm.trans found
      · have declared := (wf'.left_eq_start_iff found).not.mpr (by simp)
        exact absurd (used.resolve_left declared) (extended.aside i p (Nat.le_of_not_lt old) found)
  | accept => exact (congrArg some extended.accept).symm.trans found

theorem ExtendedBy.entries {n : Nonterminal} (used : g.InUse n) : h.entries n = g.entries n := by
  have sizes : g.rules.size ≤ h.rules.size := extended.rules.length_le
  obtain ⟨more, size⟩ := Nat.exists_eq_add_of_le sizes
  have old : ∀ id ∈ g.productionIds, h.production? id = g.production? id := by
    intro id member
    obtain ⟨p, found⟩ := mem_productionIds.mp member
    rw [extended.production found, found]
  -- Among the identifiers that are new, none is of a production of the nonterminal.
  have none' : ((List.range more).map fun i => ProductionId.rule (g.rules.size + i)).filter
      (fun id => (h.production? id).any (·.left = n)) = [] := by
    refine List.filter_eq_nil_iff.mpr fun id member => ?_
    obtain ⟨i, -, rfl⟩ := List.mem_map.mp member
    intro test
    obtain ⟨p, found, left⟩ := (Option.any_eq_true _ _).mp test
    obtain rfl : p.left = n := of_decide_eq_true left
    have known := extended.production_of_inUse wf' found used
    have bound : g.rules.size + i < g.rules.size := (Array.getElem?_eq_some_iff.mp known).1
    omega
  have split : h.productionIds = (List.range g.rules.size).map .rule ++
      ((List.range more).map fun i => ProductionId.rule (g.rules.size + i)) ++ [.accept] := by
    rw [productionIds, size, List.range_add, List.map_append, List.map_map]
    rfl
  have kept : h.productionIds.filter (fun id => (h.production? id).any (·.left = n)) =
      g.productionIds.filter fun id => (g.production? id).any (·.left = n) := by
    rw [split, List.filter_append, List.filter_append, none', List.append_nil, ← List.filter_append]
    exact List.filter_congr fun id member => by rw [old id member]
  rw [Grammar.entries, kept, Grammar.entries]

end

theorem ExtendedBy.derives_iff {β γ : List Symbol} (wf : g.WellFormed) (wf' : h.WellFormed)
    (all : ∀ n, .nonterminal n ∈ β → g.Reachable n) : h.Derives β γ ↔ g.Derives β γ := by
  constructor
  · intro path
    induction path with
    | refl => exact .refl
    | tail _ step ih =>
        cases step with
        | apply front back id p found =>
            have used := reachable_of_derives wf ih all p.left (by simp)
            exact ih.tail (.apply front back id p (extended.production_of_inUse wf' found (.inr used)))
  · intro path
    induction path with
    | refl => exact .refl
    | tail _ step ih =>
        cases step with
        | apply front back id p found => exact ih.tail (.apply front back id p (extended.production found))

end

section

variable {g : Grammar} (wf : g.WellFormed)
include wf

theorem Takes.reachable {item : Item} (takes : g.Takes item) {n : Nonterminal}
    (after : g.symbolAfterDot? item = some (.nonterminal n)) : g.Reachable n := by
  obtain ⟨p, found, used⟩ := takes
  obtain ⟨q, α, β, found', split, -⟩ := split_of_symbolAfterDot? after
  rw [found, Option.some.injEq] at found'
  subst found'
  exact reachable_of_split wf found used split

theorem Takes.opens {item entry : Item} (takes : g.Takes item) (step : g.Opens item entry) : g.Takes entry := by
  obtain ⟨n, after, member⟩ := opens_iff.mp step
  obtain ⟨id, p, found, rfl, rfl⟩ := mem_entries.mp member
  exact ⟨p, found, .inr (takes.reachable wf after)⟩

theorem takes_of_mem_entryClosure {n : Nonterminal} (used : g.InUse n) {item : Item} (member : item ∈ g.entryClosure n) :
    g.Takes item := by
  obtain ⟨entry, among, path⟩ := mem_entryClosure.mp member
  obtain ⟨id, p, found, rfl, rfl⟩ := mem_entries.mp among
  have first : g.Takes ⟨id, 0⟩ := ⟨p, found, used⟩
  induction path with
  | refl => exact first
  | tail before step ih => exact (ih (mem_entryClosure.mpr ⟨_, among, before⟩)).opens wf step

theorem takes_of_item {a : Automaton} (returned : g.automaton = .ok a) {s i : Nat} {item : Item} (at' : a.item s i = .ok item) :
    g.Takes item := by
  obtain ⟨p, found, -⟩ := item_places returned wf at'
  obtain ⟨γ, path⟩ := follow_of_item returned at'
  exact ⟨p, found, (valid_of_item wf returned path at').reachable wf found⟩

end

section

variable {g h : Grammar} (extended : g.ExtendedBy h) (wf : g.WellFormed) (wf' : h.WellFormed)
include extended

theorem ExtendedBy.symbolAfterDot? {item : Item} (takes : g.Takes item) : h.symbolAfterDot? item = g.symbolAfterDot? item := by
  obtain ⟨p, found, -⟩ := takes
  rw [Grammar.symbolAfterDot?, extended.production found, Grammar.symbolAfterDot?, found]

theorem ExtendedBy.moveSymbol? {item : Item} (takes : g.Takes item) : h.moveSymbol? item = g.moveSymbol? item := by
  rw [Grammar.moveSymbol?, extended.symbolAfterDot? takes, Grammar.moveSymbol?]

theorem ExtendedBy.shifts {items : List Item} (all : ∀ item ∈ items, g.Takes item) : h.shifts items = g.shifts items := by
  have same : (items.zipIdx.filterMap fun entry => (h.moveSymbol? entry.1).map fun x => (x, entry.2, entry.1.advance)) =
      items.zipIdx.filterMap fun entry => (g.moveSymbol? entry.1).map fun x => (x, entry.2, entry.1.advance) := by
    refine List.filterMap_congr fun entry member => ?_
    rw [extended.moveSymbol? (all _ (List.fst_mem_of_mem_zipIdx member))]
  unfold Grammar.shifts
  exact congrArg (fun indexed => (Numbering.ofList (indexed.map Prod.fst)).toList.map fun x =>
    (⟨x, sortByItem ((indexed.filter fun entry => entry.1 = x).map Prod.snd)⟩ : Shift)) same

include wf wf'

theorem ExtendedBy.opens {item : Item} (takes : g.Takes item) : h.opens item = g.opens item := by
  rw [Grammar.opens, extended.symbolAfterDot? takes, Grammar.opens]
  cases after : g.symbolAfterDot? item with
  | none => rfl
  | some x =>
      cases x with
      | terminal t => rfl
      | nonterminal n => exact extended.entries wf' (.inr (takes.reachable wf after))

theorem ExtendedBy.entryClosure {n : Nonterminal} (used : g.InUse n) : h.entryClosure n = g.entryClosure n := by
  have searched : Numbering.reach h.opens (h.rules.size + 1) (h.entries n) =
        Numbering.reach g.opens (g.rules.size + 1) (g.entries n) := by
    rw [extended.entries wf' used]
    refine Numbering.expand_congr _ _ (size_entryClosure_le n) (Nat.succ_le_succ extended.rules.length_le) fun item member => ?_
    exact extended.opens wf wf' (takes_of_mem_entryClosure wf used member)
  rw [Grammar.entryClosure, searched, Grammar.entryClosure]

theorem ExtendedBy.openedBy {item : Item} (takes : g.Takes item) : h.openedBy h.closures item = g.openedBy g.closures item := by
  rw [Grammar.openedBy, extended.symbolAfterDot? takes, Grammar.openedBy]
  cases after : g.symbolAfterDot? item with
  | none => rfl
  | some x =>
      cases x with
      | terminal t => rfl
      | nonterminal n =>
          have known : g.Knows (.nonterminal n) := wf.knows_symbolAfterDot after
          have known' : h.Knows (.nonterminal n) := Nat.lt_of_lt_of_le known extended.nonterminals
          simp only [getD_closures known, getD_closures known']
          exact extended.entryClosure wf wf' (.inr (takes.reachable wf after))

theorem ExtendedBy.stateItems {kernel : List Item} (all : ∀ item ∈ kernel, g.Takes item) :
    h.stateItems h.closures kernel = g.stateItems g.closures kernel := by
  have same : kernel.flatMap (h.openedBy h.closures) = kernel.flatMap (g.openedBy g.closures) :=
    List.flatMap_congr fun item member => extended.openedBy wf wf' (all item member)
  rw [Grammar.stateItems, same, Grammar.stateItems]

theorem ExtendedBy.automaton {a : Automaton} (returned : g.automaton = .ok a) : h.automaton = .ok a := by
  have small := (states_of_automaton returned).1
  have all : ∀ kernel ∈ (g.kernels g.closures).toList, ∀ item ∈ g.stateItems g.closures kernel, g.Takes item := by
    intro kernel known item member
    obtain ⟨s, here⟩ := (Numbering.mem_toList_iff _ _).mp known
    obtain ⟨i, at'⟩ := List.mem_iff_getElem?.mp member
    exact takes_of_item wf returned ((item_iff returned).mpr ⟨kernel, here, at'⟩)
  have items : ∀ kernel ∈ (g.kernels g.closures).toList, h.stateItems h.closures kernel = g.stateItems g.closures kernel :=
    fun kernel known => extended.stateItems wf wf' fun item member =>
      all kernel known item (wf.mem_stateItems.mpr ⟨item, member, .refl⟩)
  have shifts : ∀ kernel ∈ (g.kernels g.closures).toList,
      h.shifts (h.stateItems h.closures kernel) = g.shifts (g.stateItems g.closures kernel) := by
    intro kernel known
    rw [items kernel known]
    exact extended.shifts (all kernel known)
  have kernels : h.kernels h.closures = g.kernels g.closures := by
    refine Numbering.expand_congr _ _ small (Nat.le_refl _) fun kernel known => ?_
    rw [nextKernels, shifts kernel known, nextKernels]
  have states : (g.kernels g.closures).values.map (h.state h.closures (g.kernels g.closures)) =
      (g.kernels g.closures).values.map (g.state g.closures (g.kernels g.closures)) := by
    refine Array.map_congr_left fun kernel member => ?_
    have known : kernel ∈ (g.kernels g.closures).toList := Array.mem_toList_iff.mpr member
    rw [Grammar.state, shifts kernel known, items kernel known, Grammar.state]
  rw [← returned, Grammar.automaton, Grammar.automaton]
  simp only [kernels, states]

end

structure Alike (g h : Grammar) (a : Automaton) : Prop where
  startLayout : g.startLayout = h.startLayout
  dotted : ∀ s k p α β, g.Dotted a s k p α β ↔ h.Dotted a s k p α β
  derives : ∀ s k p α β γ δ, g.Dotted a s k p α (β ++ γ) → (g.Derives γ δ ↔ h.Derives γ δ)

section

variable {g h : Grammar} {a : Automaton} (alike : Alike g h a)
include alike

theorem Alike.symm : Alike h g a where
  startLayout := alike.startLayout.symm
  dotted s k p α β := (alike.dotted s k p α β).symm
  derives s k p α β γ δ here := (alike.derives s k p α β γ δ ((alike.dotted _ _ _ _ _).mpr here)).symm

theorem Alike.enters {s i : Nat} {n : Nonterminal} (entry : g.Enters a s i n) : h.Enters a s i n := by
  obtain ⟨p, ω, here, left⟩ := entry
  exact ⟨p, ω, (alike.dotted _ _ _ _ _).mp here, left⟩

theorem Alike.begins {s k : Nat} {p : Production} {α β : List Symbol} {x : Symbol} (here : g.Dotted a s k p α (x :: β))
    {t : Terminal} (begins : g.Begins β t) : h.Begins β t := by
  obtain ⟨ζ, path⟩ := begins
  exact ⟨ζ, (alike.derives s k p α [x] β _ here).mp path⟩

theorem Alike.vanishes {s k : Nat} {p : Production} {α β γ : List Symbol} (here : g.Dotted a s k p α (β ++ γ))
    (gone : g.Vanishes γ) : h.Vanishes γ := (alike.derives s k p α β γ [] here).mp gone

theorem Alike.passes {F : Set Fact} {s k : Nat} {fact : Fact} (passes : g.Passes a F s k fact) : h.Passes a F s k fact := by
  have kept {s k : Nat} {p : Production} {α β : List Symbol} (here : g.Dotted a s k p α β) : h.Dotted a s k p α β :=
    (alike.dotted s k p α β).mp here
  have behind {s k : Nat} {p : Production} {α β : List Symbol} {x : Symbol} (here : g.Dotted a s k p α (x :: β))
      (gone : g.Vanishes β) : h.Vanishes β := alike.vanishes (β := [x]) here gone
  cases passes with
  | first i p α β n t here entry begins => exact .first i p α β n t (kept here) (alike.enters entry) (alike.begins here begins)
  | lookahead i p α β n t here entry gone known =>
      exact .lookahead i p α β n t (kept here) (alike.enters entry) (behind here gone) known
  | opening i p β n l here entry known => exact .opening i p β n l (kept here) (alike.enters entry) known
  | between i p α β n l here entry inside admitted => exact .between i p α β n l (kept here) (alike.enters entry) inside admitted
  | gap i p α β n l here entry around admitted =>
      exact .gap i p α β n l (kept here) (alike.enters entry)
        (around.imp_right fun ⟨t, begins⟩ => ⟨t, alike.begins here begins⟩) admitted
  | closing i p α β n l here entry gone known =>
      exact .closing i p α β n l (kept here) (alike.enters entry) (behind here gone) known
  | move x t j y step inner known => exact .move x t j y step inner known
  | arrive x t j p α β l step inner there more admitted => exact .arrive x t j p α β l step inner (kept there) more admitted
  | before p β l here known => exact .before p β l (kept here) known
  | behind p α β l here gone known => exact .behind p α β l (kept here) (alike.vanishes (β := []) here gone) known

theorem Alike.closed {F : Set Fact} (closed : h.Closed a F) : g.Closed a F where
  start l member := closed.start l (alike.startLayout ▸ member)
  passed s k active fact passes := closed.passed s k active fact (alike.passes passes)

theorem Alike.least : g.least a = h.least a :=
  Set.Subset.antisymm (isLeast_least.2 (alike.closed isLeast_least.1)) (isLeast_least.2 (alike.symm.closed isLeast_least.1))

theorem Alike.table (wf : g.WellFormed) (wf' : h.WellFormed) (returned : g.automaton = .ok a) (returned' : h.automaton = .ok a) :
    a.table g g.context = a.table h h.context := by
  obtain ⟨b, ran, -, rows, cells, least⟩ := spread_exact wf returned
  obtain ⟨b', ran', -, rows', cells', least'⟩ := spread_exact wf' returned'
  have same : b.facts = b'.facts := by rw [least, least', alike.least]
  have annotations (s : Nat) : Row.annotation (b.row s) = Row.annotation (b'.row s) := by
    have layouts : (b.row s).layout = (b'.row s).layout := BitSet.ext fun l => Set.ext_iff.mp same (.state s l)
    have held (i : Nat) : ((b.row s).cell i).lookahead = ((b'.row s).cell i).lookahead :=
      BitSet.ext fun t => Set.ext_iff.mp same (.item s i (.lookahead t))
    have inside (i : Nat) : i < (b.row s).cells.size ↔ i < (b'.row s).cells.size := (cells s i).trans (cells' s i).symm
    have sizes : (b.row s).cells.size = (b'.row s).cells.size :=
      Nat.le_antisymm (Nat.le_of_not_lt fun less => Nat.lt_irrefl _ ((inside _).mp less))
        (Nat.le_of_not_lt fun less => Nat.lt_irrefl _ ((inside _).mpr less))
    have lookaheads : (b.row s).cells.map Cell.lookahead = (b'.row s).cells.map Cell.lookahead := by
      refine Array.ext (by simpa using sizes) fun i bound bound' => ?_
      rw [Array.size_map] at bound bound'
      simpa [Row.cell, Array.getD_eq_getD_getElem?, bound, bound'] using held i
    rw [Row.annotation, layouts, lookaheads, Row.annotation]
  have states : b.rows.map Row.annotation = b'.rows.map Row.annotation := by
    refine Array.ext (by simp [rows, rows']) fun s bound bound' => ?_
    rw [Array.size_map] at bound bound'
    simpa [Board.row, Array.getD_eq_getD_getElem?, bound, bound'] using annotations s
  rw [table_of_spread returned ran, table_of_spread returned' ran', states]

end

section

variable {g h : Grammar} (extended : g.ExtendedBy h) (wf : g.WellFormed)
include extended wf

theorem ExtendedBy.dotted_iff {a : Automaton} (returned : g.automaton = .ok a) {s k : Nat} {p : Production} {α β : List Symbol} :
    g.Dotted a s k p α β ↔ h.Dotted a s k p α β := by
  constructor
  · rintro ⟨id, at', found, split⟩
    exact ⟨id, at', extended.production found, split⟩
  · rintro ⟨id, at', found, split⟩
    obtain ⟨q, known, -⟩ := takes_of_item wf returned at'
    have same : q = p := Option.some.inj ((extended.production known).symm.trans found)
    exact ⟨id, at', same ▸ known, split⟩

variable (wf' : h.WellFormed)
include wf'

theorem ExtendedBy.alike {a : Automaton} (returned : g.automaton = .ok a) : Alike g h a where
  startLayout := extended.startLayout.symm
  dotted s k p α β := extended.dotted_iff wf returned
  derives s k p α β γ δ here := by
    obtain ⟨id, at', found, split⟩ := here
    obtain ⟨q, known, used⟩ := takes_of_item wf returned at'
    obtain rfl : q = p := Option.some.inj (known.symm.trans found)
    refine (extended.derives_iff wf wf' fun n member => ?_).symm
    obtain ⟨front, back, rfl⟩ := List.append_of_mem member
    exact reachable_of_split wf found used (α := α ++ β ++ front) (β := back) (by simp [split])

theorem ExtendedBy.table {a : Automaton} (returned : g.automaton = .ok a) : a.table h h.context = a.table g g.context :=
  ((extended.alike wf wf' returned).table wf wf' returned (extended.automaton wf wf' returned)).symm

end

end Grammar

end Lookahead
