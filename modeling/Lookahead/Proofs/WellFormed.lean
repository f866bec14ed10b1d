import Lookahead.Grammar.Definition

set_option autoImplicit false

namespace Lookahead

namespace Definition

structure WellFormed (d : Definition) : Prop where
  terminals : 0 < d.terminals.size
  nonterminals : 0 < d.nonterminals.size
  start : ∀ n, d.startSymbol = some n → d.Declares (.nonterminal n)
  left : ∀ p ∈ d.rules, d.Declares (.nonterminal p.left)
  right : ∀ p ∈ d.rules, ∀ x ∈ p.right, d.Declares x
  layout : ∀ p ∈ d.rules, ∀ l ∈ p.layout, d.DeclaresLayout l
  startLayout : ∀ l ∈ d.startLayout, d.DeclaresLayout l

structure Extends (d d' : Definition) : Prop where
  terminals : d.terminals.size ≤ d'.terminals.size
  layouts : d.layouts.size ≤ d'.layouts.size
  nonterminals : d.nonterminals.size ≤ d'.nonterminals.size

theorem Extends.declares {d d' : Definition} (more : Extends d d') (x : Symbol) (declared : d.Declares x) :
    d'.Declares x := by
  cases x with
  | terminal t => exact ⟨declared.1, Nat.lt_of_lt_of_le declared.2 more.terminals⟩
  | nonterminal n => exact ⟨declared.1, Nat.lt_of_lt_of_le declared.2 more.nonterminals⟩

theorem Extends.declaresLayout {d d' : Definition} (more : Extends d d') (l : Layout)
    (declared : d.DeclaresLayout l) : d'.DeclaresLayout l :=
  Nat.lt_of_lt_of_le declared more.layouts

theorem WellFormed.extend {d d' : Definition} (wf : d.WellFormed) (more : Extends d d')
    (rules : d'.rules = d.rules) (start : d'.startSymbol = d.startSymbol)
    (startLayout : d'.startLayout = d.startLayout) : d'.WellFormed where
  terminals := Nat.lt_of_lt_of_le wf.terminals more.terminals
  nonterminals := Nat.lt_of_lt_of_le wf.nonterminals more.nonterminals
  start n set := more.declares _ (wf.start n (start ▸ set))
  left p member := more.declares _ (wf.left p (rules ▸ member))
  right p member x among := more.declares x (wf.right p (rules ▸ member) x among)
  layout p member l among := more.declaresLayout l (wf.layout p (rules ▸ member) l among)
  startLayout l member := more.declaresLayout l (wf.startLayout l (startLayout ▸ member))

theorem empty_wellFormed : empty.WellFormed where
  terminals := by decide
  nonterminals := by decide
  start _ set := by simp [empty] at set
  left _ member := by simp [empty] at member
  right _ member := by simp [empty] at member
  layout _ member := by simp [empty] at member
  startLayout _ member := by simp [empty] at member

theorem declares_of_nonterminalBreach? {d : Definition} {n : Nonterminal}
    (sound : d.nonterminalBreach? n = none) : d.Declares (.nonterminal n) := by
  unfold nonterminalBreach? at sound
  split at sound
  · assumption
  · cases sound

theorem declares_of_productionBreach? {d : Definition} {p : Production}
    (sound : d.productionBreach? p = none) :
    d.Declares (.nonterminal p.left) ∧ (∀ x ∈ p.right, d.Declares x) ∧ ∀ l ∈ p.layout, d.DeclaresLayout l := by
  rw [productionBreach?] at sound
  simp only [Option.or_eq_none_iff, Option.map_eq_none_iff, Array.find?_eq_none, List.find?_eq_none,
    decide_not, Bool.not_eq_true', Bool.not_eq_false, decide_eq_true_eq] at sound
  obtain ⟨left, right, layout, -⟩ := sound
  exact ⟨declares_of_nonterminalBreach? left, right, fun l member => layout l (BitSet.mem_toList.mpr member)⟩

theorem WellFormed.push {d : Definition} (wf : d.WellFormed) {p : Production}
    (sound : d.productionBreach? p = none) : { d with rules := d.rules.push p }.WellFormed := by
  obtain ⟨left, right, layout⟩ := declares_of_productionBreach? sound
  refine ⟨wf.terminals, wf.nonterminals, wf.start, ?_, ?_, ?_, wf.startLayout⟩
  all_goals
    intro q member
    rcases Array.mem_push.mp member with old | rfl
  · exact wf.left q old
  · exact left
  · exact wf.right q old
  · exact right
  · exact wf.layout q old
  · exact layout

theorem WellFormed.admitStartLayout {d : Definition} (wf : d.WellFormed) (ls : List Layout) :
    (d.admitStartLayout ls).1.WellFormed := by
  induction ls generalizing d with
  | nil => exact wf
  | cons l rest ih =>
      rw [Definition.admitStartLayout]
      split
      · rename_i declared
        refine ih ⟨wf.terminals, wf.nonterminals, wf.start, wf.left, wf.right, wf.layout, fun k member => ?_⟩
        rcases BitSet.mem_insert.mp member with old | rfl
        · exact wf.startLayout k old
        · exact declared
      · exact wf

theorem WellFormed.apply {d : Definition} (wf : d.WellFormed) (step : Step) : (d.apply step).1.WellFormed := by
  cases step with
  | terminal name =>
      rw [Definition.apply]
      split
      · exact wf
      · exact wf.extend ⟨by simp, Nat.le_refl _, Nat.le_refl _⟩ rfl rfl rfl
  | layout name =>
      rw [Definition.apply]
      split
      · exact wf
      · exact wf.extend ⟨Nat.le_refl _, by simp, Nat.le_refl _⟩ rfl rfl rfl
  | nonterminal name =>
      rw [Definition.apply]
      split
      · exact wf
      · exact wf.extend ⟨Nat.le_refl _, Nat.le_refl _, by simp⟩ rfl rfl rfl
  | production layout left right =>
      simp only [Definition.apply]
      split
      · exact wf
      · exact wf.push (by assumption)
  | startSymbol n =>
      rw [Definition.apply]
      split
      · exact wf
      · refine ⟨wf.terminals, wf.nonterminals, fun m set => ?_, wf.left, wf.right, wf.layout, wf.startLayout⟩
        cases set
        exact declares_of_nonterminalBreach? (by assumption)
  | startLayout layout => exact wf.admitStartLayout layout

theorem WellFormed.applyAll {d : Definition} (wf : d.WellFormed) (steps : List Step) :
    (d.applyAll steps).1.WellFormed := by
  induction steps generalizing d with
  | nil => exact wf
  | cons step rest ih => exact ih (wf.apply step)

theorem applyAll_of_applyUntilError {d d' : Definition} (steps : List Step)
    (passed : (d.applyUntilError steps).1 = .ok d') :
    (d.applyAll steps).1 = d' ∧ ∀ outcome ∈ (d.applyAll steps).2, outcome.isOk := by
  induction steps generalizing d with
  | nil => exact ⟨Except.ok.inj passed, fun _ none => absurd none List.not_mem_nil⟩
  | cons step rest ih =>
      rw [applyUntilError] at passed
      rw [applyAll]
      split at passed
      · cases passed
      · rename_i next declared succeeded
        obtain ⟨ended, later⟩ := ih passed
        rw [succeeded]
        refine ⟨ended, fun outcome member => ?_⟩
        rcases List.mem_cons.mp member with rfl | among
        · rfl
        · exact later outcome among

end Definition

namespace Grammar

-- A grammar is accepted if some run of steps ends in it. Steps of the run may have failed, if only
-- the run went on.
def Accepted (g : Grammar) : Prop := ∃ steps, (Definition.empty.applyAll steps).1.finish = .ok g

theorem finish_of_define (steps : List Step) {g : Grammar} (defined : define steps = .ok g) :
    (Definition.empty.applyAll steps).1.finish = .ok g ∧
      ∀ outcome ∈ (Definition.empty.applyAll steps).2, outcome.isOk := by
  unfold define at defined
  cases run : (Definition.empty.applyUntilError steps).1 with
  | error e => simp [run, bind, Except.bind] at defined
  | ok d =>
      obtain ⟨ended, succeeded⟩ := Definition.applyAll_of_applyUntilError steps run
      rw [run] at defined
      exact ⟨ended ▸ defined, succeeded⟩

theorem accepted_of_define (steps : List Step) {g : Grammar} (defined : define steps = .ok g) : g.Accepted :=
  ⟨steps, (finish_of_define steps defined).1⟩

-- The symbols with a number, the two reserved ones among them.
def Knows (g : Grammar) : Symbol → Prop
  | .terminal t => t.index < g.terminals.size
  | .nonterminal n => n.index < g.nonterminals.size

-- The symbols that a step may mention.
def Declares (g : Grammar) (x : Symbol) : Prop :=
  g.Knows x ∧ x ≠ .terminal .endOfInput ∧ x ≠ .nonterminal .start

structure WellFormed (g : Grammar) : Prop where
  terminals : 0 < g.terminals.size
  nonterminals : 0 < g.nonterminals.size
  start : g.Declares (.nonterminal g.startSymbol)
  left : ∀ p ∈ g.rules, g.Declares (.nonterminal p.left)
  right : ∀ p ∈ g.rules, ∀ x ∈ p.right, g.Declares x
  layout : ∀ p ∈ g.rules, ∀ l ∈ p.layout, l.index < g.layouts.size
  startLayout : ∀ l ∈ g.startLayout, l.index < g.layouts.size

theorem finish_declares {d : Definition} {g : Grammar} (ended : d.finish = .ok g) :
    ∃ start, d.start? = some start ∧ g = ⟨d.terminals, d.layouts, d.nonterminals, d.rules, start, d.startLayout⟩ := by
  unfold Definition.finish at ended
  split at ended
  · rename_i start found
    exact ⟨start, found, (Except.ok.inj ended).symm⟩
  · cases ended

theorem start?_declared {d : Definition} (wf : d.WellFormed) {n : Nonterminal} (found : d.start? = some n) :
    d.Declares (.nonterminal n) := by
  unfold Definition.start? at found
  cases set : d.startSymbol with
  | some m =>
      rw [set, Option.some_or, Option.some.injEq] at found
      exact found ▸ wf.start m set
  | none =>
      rw [set, Option.none_or] at found
      split at found
      · cases found
        exact ⟨by decide, by assumption⟩
      · cases found

theorem declares_of_finish {d : Definition} {g : Grammar} (ended : d.finish = .ok g) (x : Symbol)
    (declared : d.Declares x) : g.Declares x := by
  obtain ⟨start, -, rfl⟩ := finish_declares ended
  cases x with
  | terminal t => exact ⟨declared.2, by simpa using declared.1, by simp⟩
  | nonterminal n => exact ⟨declared.2, by simp, by simpa using declared.1⟩

theorem Accepted.wellFormed {g : Grammar} (accepted : g.Accepted) : g.WellFormed := by
  obtain ⟨steps, ended⟩ := accepted
  have wf := Definition.empty_wellFormed.applyAll steps
  generalize (Definition.empty.applyAll steps).1 = d at ended wf
  have declared := declares_of_finish ended
  obtain ⟨start, found, rfl⟩ := finish_declares ended
  exact ⟨wf.terminals, wf.nonterminals, declared _ (start?_declared wf found),
    fun p member => declared _ (wf.left p member), fun p member x among => declared x (wf.right p member x among),
    wf.layout, wf.startLayout⟩

theorem mem_productionIds {g : Grammar} {id : ProductionId} :
    id ∈ g.productionIds ↔ ∃ p, g.production? id = some p := by
  cases id with
  | rule i =>
      simp only [productionIds, List.mem_append, List.mem_map, List.mem_range, ProductionId.rule.injEq,
        exists_eq_right, List.mem_singleton, reduceCtorEq, or_false, production?]
      exact ⟨fun bound => ⟨_, Array.getElem?_eq_getElem bound⟩,
        fun ⟨p, found⟩ => (Array.getElem?_eq_some_iff.mp found).1⟩
  | accept => simp [productionIds, production?]

theorem mem_productions {g : Grammar} {p : Production} :
    p ∈ g.productions ↔ ∃ id, g.production? id = some p := by
  rw [productions, List.mem_append, List.mem_singleton]
  constructor
  · rintro (declared | rfl)
    · obtain ⟨i, found⟩ := Array.mem_iff_getElem?.mp (Array.mem_toList_iff.mp declared)
      exact ⟨.rule i, found⟩
    · exact ⟨.accept, rfl⟩
  · rintro ⟨id, found⟩
    cases id with
    | rule i => exact .inl (Array.mem_toList_iff.mpr (Array.mem_of_getElem? found))
    | accept => exact .inr (Option.some.inj found).symm

theorem mem_accept_right {g : Grammar} {x : Symbol} :
    x ∈ g.accept.right ↔ x = .nonterminal g.startSymbol ∨ x = .terminal .endOfInput := by
  simp [accept]

section

variable {g : Grammar} (wf : g.WellFormed) {id : ProductionId} {p : Production}
include wf

theorem WellFormed.knows_left (found : g.production? id = some p) : g.Knows (.nonterminal p.left) := by
  cases id with
  | rule i => exact (wf.left p (Array.mem_of_getElem? found)).1
  | accept =>
      cases found
      exact wf.nonterminals

theorem WellFormed.knows_right (found : g.production? id = some p) {x : Symbol} (member : x ∈ p.right) :
    g.Knows x := by
  cases id with
  | rule i => exact (wf.right p (Array.mem_of_getElem? found) x member).1
  | accept =>
      cases found
      rcases mem_accept_right.mp member with rfl | rfl
      · exact wf.start.1
      · exact wf.terminals

theorem WellFormed.start_not_mem_right (found : g.production? id = some p) :
    .nonterminal .start ∉ p.right := by
  intro member
  cases id with
  | rule i => exact (wf.right p (Array.mem_of_getElem? found) _ member).2.2 rfl
  | accept =>
      cases found
      rcases mem_accept_right.mp member with same | same
      · exact wf.start.2.2 same.symm
      · cases same

theorem WellFormed.left_eq_start_iff (found : g.production? id = some p) :
    p.left = .start ↔ id = .accept := by
  cases id with
  | rule i =>
      have declared := wf.left p (Array.mem_of_getElem? found)
      simp only [reduceCtorEq, iff_false]
      exact fun same => declared.2.2 (congrArg _ same)
  | accept =>
      cases found
      exact ⟨fun _ => rfl, fun _ => rfl⟩

theorem WellFormed.endOfInput_not_mem_right (found : g.production? id = some p) (declared : p.left ≠ .start) :
    .terminal .endOfInput ∉ p.right := by
  intro member
  cases id with
  | rule i => exact (wf.right p (Array.mem_of_getElem? found) _ member).2.1 rfl
  | accept => exact declared ((wf.left_eq_start_iff found).mpr rfl)

theorem WellFormed.knows_layout (found : g.production? id = some p) {l : Layout} (member : l ∈ p.layout) :
    l.index < g.layouts.size := by
  cases id with
  | rule i => exact wf.layout p (Array.mem_of_getElem? found) l member
  | accept =>
      cases found
      exact wf.startLayout l member

end

end Grammar

end Lookahead
