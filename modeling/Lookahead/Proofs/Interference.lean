import Lookahead.Proofs.Activity

set_option autoImplicit false

namespace Lookahead

namespace BitSet

variable {α : Type} [Indexed α] [DecidableEq α]

def erase (s : BitSet α) (a : α) : BitSet α := ofList (s.toList.filter (· ≠ a))

@[simp] theorem mem_erase {s : BitSet α} {a b : α} : b ∈ s.erase a ↔ b ∈ s ∧ b ≠ a := by
  simp [erase]

end BitSet

def Production.eraseLayout (w : Layout) (p : Production) : Production := { p with layout := p.layout.erase w }

def Trait.Mentions (w : Layout) : Trait → Prop
  | .lookahead _ => False
  | .opening l => l = w
  | .closing l => l = w

def Fact.Mentions (w : Layout) : Fact → Prop
  | .item _ _ x => x.Mentions w
  | .state _ l => l = w

namespace Grammar

def eraseLayout (g : Grammar) (w : Layout) : Grammar :=
  { g with rules := g.rules.map (·.eraseLayout w), startLayout := g.startLayout.erase w }

theorem automaton_congr {g h : Grammar} (nonterminals : g.nonterminals.size = h.nonterminals.size)
    (rules : g.rules.size = h.rules.size) (after : g.symbolAfterDot? = h.symbolAfterDot?)
    (entries : g.entries = h.entries) : g.automaton = h.automaton := by
  have moves : g.moveSymbol? = h.moveSymbol? := by
    funext item
    rw [moveSymbol?, after, moveSymbol?]
  have opens : g.opens = h.opens := by
    funext item
    rw [opens, after, entries, opens]
  have closures : g.closures = h.closures := by
    unfold Grammar.closures entryClosure
    rw [nonterminals, rules, opens, entries]
  have items : g.stateItems = h.stateItems := by
    funext known kernel
    have opened : g.openedBy known = h.openedBy known := by
      funext item
      rw [openedBy, after, openedBy]
    rw [stateItems, opened, stateItems]
  have shifts : g.shifts = h.shifts := by
    funext among
    rw [Grammar.shifts, moves, Grammar.shifts]
  have kernels : g.kernels = h.kernels := by
    have next : g.nextKernels = h.nextKernels := by
      funext known kernel
      rw [nextKernels, shifts, items, nextKernels]
    funext known
    rw [Grammar.kernels, next, Grammar.kernels]
  have state : g.state = h.state := by
    funext known numbers kernel
    rw [Grammar.state, shifts, items, Grammar.state]
  rw [automaton, closures, kernels, state, automaton]

variable {g : Grammar} {a : Automaton} {w : Layout}

theorem production?_eraseLayout (id : ProductionId) :
    (g.eraseLayout w).production? id = (g.production? id).map (·.eraseLayout w) := by
  cases id with
  | rule i => exact Array.getElem?_map
  | accept => rfl

theorem production?_eraseLayout_eq_some_iff {id : ProductionId} {q : Production} :
    (g.eraseLayout w).production? id = some q ↔ ∃ p, g.production? id = some p ∧ p.eraseLayout w = q := by
  rw [production?_eraseLayout, Option.map_eq_some_iff]

theorem symbolAfterDot?_eraseLayout {item : Item} : (g.eraseLayout w).symbolAfterDot? item = g.symbolAfterDot? item := by
  rw [symbolAfterDot?, production?_eraseLayout, Option.bind_map]
  rfl

theorem moveSymbol?_eraseLayout {item : Item} : (g.eraseLayout w).moveSymbol? item = g.moveSymbol? item := by
  rw [moveSymbol?, symbolAfterDot?_eraseLayout, moveSymbol?]

theorem automaton_eraseLayout : (g.eraseLayout w).automaton = g.automaton := by
  have size : (g.eraseLayout w).rules.size = g.rules.size := Array.size_map
  refine automaton_congr rfl size (funext fun item => symbolAfterDot?_eraseLayout) (funext fun n => ?_)
  have ids : (g.eraseLayout w).productionIds = g.productionIds := by
    rw [productionIds, size]
    rfl
  rw [entries, entries, ids]
  simp only [production?_eraseLayout, Option.any_map]
  rfl

theorem WellFormed.eraseLayout (wf : g.WellFormed) : (g.eraseLayout w).WellFormed := by
  have stems : ∀ q ∈ (g.eraseLayout w).rules, ∃ p ∈ g.rules, p.eraseLayout w = q := fun q => Array.mem_map.mp
  refine ⟨wf.terminals, wf.nonterminals, wf.start, fun q member => ?_, fun q member => ?_, fun q member l among => ?_,
    fun l among => wf.startLayout l (BitSet.mem_erase.mp among).1⟩
  all_goals obtain ⟨p, old, rfl⟩ := stems q member
  · exact wf.left p old
  · exact wf.right p old
  · exact wf.layout p old l (BitSet.mem_erase.mp among).1

theorem rewrites_eraseLayout : (g.eraseLayout w).Rewrites = g.Rewrites := by
  funext β γ
  refine propext ⟨fun step => ?_, fun step => ?_⟩
  · cases step with
    | apply front back id q found =>
        obtain ⟨p, found', rfl⟩ := production?_eraseLayout_eq_some_iff.mp found
        exact .apply front back id p found'
  · cases step with
    | apply front back id p found =>
        exact .apply front back id (p.eraseLayout w) (production?_eraseLayout_eq_some_iff.mpr ⟨p, found, rfl⟩)

theorem derives_eraseLayout : (g.eraseLayout w).Derives = g.Derives := by
  rw [Derives, rewrites_eraseLayout, Derives]

theorem begins_eraseLayout_iff {β : List Symbol} {t : Terminal} : (g.eraseLayout w).Begins β t ↔ g.Begins β t := by
  rw [Begins, derives_eraseLayout, Begins]

theorem vanishes_eraseLayout_iff {β : List Symbol} : (g.eraseLayout w).Vanishes β ↔ g.Vanishes β := by
  rw [Vanishes, derives_eraseLayout, Vanishes]

theorem Continues.eraseLayout (continues : g.Continues) : (g.eraseLayout w).Continues := by
  intro id q α n β found outer split
  obtain ⟨p, found', rfl⟩ := production?_eraseLayout_eq_some_iff.mp found
  simp only [vanishes_eraseLayout_iff, begins_eraseLayout_iff]
  rw [Reachable, derives_eraseLayout] at outer
  exact continues id p α n β found' outer split

theorem dotted_eraseLayout_iff {s k : Nat} {q : Production} {α β : List Symbol} :
    (g.eraseLayout w).Dotted a s k q α β ↔ ∃ p, g.Dotted a s k p α β ∧ p.eraseLayout w = q := by
  constructor
  · rintro ⟨id, at', found, split⟩
    obtain ⟨p, found', rfl⟩ := production?_eraseLayout_eq_some_iff.mp found
    exact ⟨p, ⟨id, at', found', split⟩, rfl⟩
  · rintro ⟨p, ⟨id, at', found, split⟩, rfl⟩
    exact ⟨id, at', production?_eraseLayout_eq_some_iff.mpr ⟨p, found, rfl⟩, split⟩

theorem enters_eraseLayout_iff {s i : Nat} {n : Nonterminal} : (g.eraseLayout w).Enters a s i n ↔ g.Enters a s i n := by
  constructor
  · rintro ⟨q, ω, there, left⟩
    obtain ⟨p, here, rfl⟩ := dotted_eraseLayout_iff.mp there
    exact ⟨p, ω, here, left⟩
  · rintro ⟨p, ω, here, left⟩
    exact ⟨p.eraseLayout w, ω, dotted_eraseLayout_iff.mpr ⟨p, here, rfl⟩, left⟩

theorem Passes.of_eraseLayout {F : Set Fact} {s k : Nat} {fact : Fact} (passes : (g.eraseLayout w).Passes a F s k fact)
    (silent : ∀ x, .item s k x ∈ F → ¬ x.Mentions w) : g.Passes a F s k fact ∧ ¬ fact.Mentions w := by
  cases passes with
  | first i q α β n t here entry begins =>
      obtain ⟨p, there, rfl⟩ := dotted_eraseLayout_iff.mp here
      exact ⟨.first i p α β n t there (enters_eraseLayout_iff.mp entry) (begins_eraseLayout_iff.mp begins), id⟩
  | lookahead i q α β n t here entry gone known =>
      obtain ⟨p, there, rfl⟩ := dotted_eraseLayout_iff.mp here
      exact ⟨.lookahead i p α β n t there (enters_eraseLayout_iff.mp entry) (vanishes_eraseLayout_iff.mp gone) known, id⟩
  | opening i q β n l here entry known =>
      obtain ⟨p, there, rfl⟩ := dotted_eraseLayout_iff.mp here
      exact ⟨.opening i p β n l there (enters_eraseLayout_iff.mp entry) known, silent _ known⟩
  | between i q α β n l here entry inside admitted =>
      obtain ⟨p, there, rfl⟩ := dotted_eraseLayout_iff.mp here
      obtain ⟨member, other⟩ := BitSet.mem_erase.mp admitted
      exact ⟨.between i p α β n l there (enters_eraseLayout_iff.mp entry) inside member, other⟩
  | gap i q α β n l here entry around admitted =>
      obtain ⟨p, there, rfl⟩ := dotted_eraseLayout_iff.mp here
      obtain ⟨member, other⟩ := BitSet.mem_erase.mp admitted
      simp only [begins_eraseLayout_iff] at around
      exact ⟨.gap i p α β n l there (enters_eraseLayout_iff.mp entry) around member, other⟩
  | closing i q α β n l here entry gone known =>
      obtain ⟨p, there, rfl⟩ := dotted_eraseLayout_iff.mp here
      exact ⟨.closing i p α β n l there (enters_eraseLayout_iff.mp entry) (vanishes_eraseLayout_iff.mp gone) known,
        silent _ known⟩
  | move x t j y step inner known => exact ⟨.move x t j y step inner known, silent y known⟩
  | arrive x t j q α β l step inner here more admitted =>
      obtain ⟨p, there, rfl⟩ := dotted_eraseLayout_iff.mp here
      obtain ⟨member, other⟩ := BitSet.mem_erase.mp admitted
      exact ⟨.arrive x t j p α β l step inner there more member, other⟩
  | before q β l here known =>
      obtain ⟨p, there, rfl⟩ := dotted_eraseLayout_iff.mp here
      exact ⟨.before p β l there known, silent _ known⟩
  | behind q α β l here gone known =>
      obtain ⟨p, there, rfl⟩ := dotted_eraseLayout_iff.mp here
      exact ⟨.behind p α β l there (vanishes_eraseLayout_iff.mp gone) known, silent _ known⟩

theorem move_of_dotted {s k : Nat} {p : Production} {α β : List Symbol} {n : Nonterminal}
    (here : g.Dotted a s k p α (.nonterminal n :: β)) :
    ∃ item, a.item s k = .ok item ∧ ∃ x, g.moveSymbol? item = some x := by
  obtain ⟨id, at', found, split⟩ := here
  exact ⟨_, at', _, moveSymbol?_eq_some_iff.mpr ⟨symbolAfterDot?_eq found split, by simp⟩⟩

theorem move_of_goes (returned : g.automaton = .ok a) {s k t j : Nat} {x : Symbol} (step : a.Goes s k x t j) :
    ∃ item, a.item s k = .ok item ∧ ∃ x, g.moveSymbol? item = some x := by
  obtain ⟨edge, taken, -, moved⟩ := step
  obtain ⟨item, at', move, -⟩ := move_sound returned taken moved
  exact ⟨item, at', x, move⟩

-- What is passed on with the token and does not mention it is passed on without it, by an item that is
-- visited all the same if every item that can be moved is.
theorem Passes.eraseLayout (returned : g.automaton = .ok a) {F G : Set Fact} {s k : Nat} {fact : Fact}
    (passes : g.Passes a F s k fact) (other : ¬ fact.Mentions w)
    (kept : ∀ x, .item s k x ∈ F → ¬ x.Mentions w → .item s k x ∈ G)
    (visited : ∀ item, a.item s k = .ok item → (∃ x, g.moveSymbol? item = some x) → Active G s k) :
    Active G s k ∧ (g.eraseLayout w).Passes a G s k fact := by
  have active : ∀ {p α β n}, g.Dotted a s k p α (.nonterminal n :: β) → Active G s k := fun here => by
    obtain ⟨item, at', moves⟩ := move_of_dotted here
    exact visited item at' moves
  have erased : ∀ {s k p α β}, g.Dotted a s k p α β → (g.eraseLayout w).Dotted a s k (p.eraseLayout w) α β :=
    fun here => dotted_eraseLayout_iff.mpr ⟨_, here, rfl⟩
  cases passes with
  | first i p α β n t here entry begins =>
      exact ⟨active here, .first i _ α β n t (erased here) (enters_eraseLayout_iff.mpr entry) (begins_eraseLayout_iff.mpr begins)⟩
  | lookahead i p α β n t here entry gone known =>
      exact ⟨active here,
        .lookahead i _ α β n t (erased here) (enters_eraseLayout_iff.mpr entry) (vanishes_eraseLayout_iff.mpr gone)
          (kept _ known id)⟩
  | opening i p β n l here entry known =>
      exact ⟨active here, .opening i _ β n l (erased here) (enters_eraseLayout_iff.mpr entry) (kept _ known other)⟩
  | between i p α β n l here entry inside admitted =>
      exact ⟨active here,
        .between i _ α β n l (erased here) (enters_eraseLayout_iff.mpr entry) inside (BitSet.mem_erase.mpr ⟨admitted, other⟩)⟩
  | gap i p α β n l here entry around admitted =>
      have around' : α ≠ [] ∨ ∃ t, (g.eraseLayout w).Begins β t :=
        around.imp_right fun ⟨t, begins⟩ => ⟨t, begins_eraseLayout_iff.mpr begins⟩
      exact ⟨active here,
        .gap i _ α β n l (erased here) (enters_eraseLayout_iff.mpr entry) around' (BitSet.mem_erase.mpr ⟨admitted, other⟩)⟩
  | closing i p α β n l here entry gone known =>
      exact ⟨active here,
        .closing i _ α β n l (erased here) (enters_eraseLayout_iff.mpr entry) (vanishes_eraseLayout_iff.mpr gone)
          (kept _ known other)⟩
  | move x t j y step inner known => exact ⟨.inr ⟨y, kept y known other⟩, .move x t j y step inner (kept y known other)⟩
  | arrive x t j p α β l step inner there more admitted =>
      obtain ⟨item, at', moves⟩ := move_of_goes returned step
      exact ⟨visited item at' moves,
        .arrive x t j _ α β l step inner (erased there) more (BitSet.mem_erase.mpr ⟨admitted, other⟩)⟩
  | before p β l here known =>
      exact ⟨.inr ⟨_, kept _ known other⟩, .before _ β l (erased here) (kept _ known other)⟩
  | behind p α β l here gone known =>
      exact ⟨.inr ⟨_, kept _ known other⟩, .behind _ α β l (erased here) (vanishes_eraseLayout_iff.mpr gone) (kept _ known other)⟩

theorem least_eraseLayout_subset : (g.eraseLayout w).least a ⊆ {fact ∈ g.least a | ¬ fact.Mentions w} := by
  have closed : g.Closed a (g.least a) := isLeast_least.1
  refine isLeast_least.2 ⟨fun l member => ?_, fun s k active fact passes => ?_⟩
  · obtain ⟨old, other⟩ := BitSet.mem_erase.mp member
    exact ⟨closed.start l old, other⟩
  · obtain ⟨same, other⟩ := passes.of_eraseLayout fun x known => known.2
    have below : {fact ∈ g.least a | ¬ fact.Mentions w} ⊆ g.least a := fun fact known => known.1
    exact ⟨closed.passed s k (active.mono below) fact (same.mono fun x known => known.1), other⟩

theorem least_eraseLayout (wf : g.WellFormed) (returned : g.automaton = .ok a) (continues : g.Continues) :
    (g.eraseLayout w).least a = {fact ∈ g.least a | ¬ fact.Mentions w} := by
  have closed : (g.eraseLayout w).Closed a ((g.eraseLayout w).least a) := isLeast_least.1
  refine Set.Subset.antisymm least_eraseLayout_subset fun fact known => ?_
  have covered : g.Closed a {fact | ¬ fact.Mentions w → fact ∈ (g.eraseLayout w).least a} := by
    refine ⟨fun l member other => closed.start l (BitSet.mem_erase.mpr ⟨member, other⟩), fun s k _ fact passes other => ?_⟩
    obtain ⟨active, same⟩ := passes.eraseLayout returned other (fun x held => held) fun item at' ⟨x, move⟩ =>
      active_of_moveSymbol? wf.eraseLayout (automaton_eraseLayout.trans returned) closed continues.eraseLayout at'
        (moveSymbol?_eraseLayout.trans move)
    exact closed.passed s k active fact same
  exact isLeast_least.2 covered known.1 known.2

theorem table_without_layout (accepted : g.Accepted) (returned : g.automaton = .ok a) (w : Layout) :
    (g.eraseLayout w).automaton = .ok a ∧ ∃ table table', a.table g g.context = .ok table ∧
      a.table (g.eraseLayout w) (g.eraseLayout w).context = .ok table' ∧
      (∀ s i item, a.item s i = .ok item → ∃ set set', table.lookahead s i = .ok set ∧
        table'.lookahead s i = .ok set' ∧ set' ⊆ set ∧ (g.Continues → set' = set)) ∧
      ∀ s state, a.state s = .ok state → ∃ set set', table.layout s = .ok set ∧ table'.layout s = .ok set' ∧
        set' ⊆ set.erase w ∧ (g.Continues → set' = set.erase w) := by
  have wf := accepted.wellFormed
  have returned' : (g.eraseLayout w).automaton = .ok a := automaton_eraseLayout.trans returned
  obtain ⟨table, ran, lookahead, layout⟩ := table_exact wf returned
  obtain ⟨table', ran', lookahead', layout'⟩ := table_exact (wf.eraseLayout (w := w)) returned'
  refine ⟨returned', table, table', ran, ran', fun s i item at' => ?_, fun s state found => ?_⟩
  · obtain ⟨set, answer, members⟩ := lookahead s i item at'
    obtain ⟨set', answer', members'⟩ := lookahead' s i item at'
    refine ⟨set, set', answer, answer', fun t member => ?_, fun continues => BitSet.ext fun t => ?_⟩
    · exact (members t).mpr (least_eraseLayout_subset ((members' t).mp member)).1
    · rw [members, members', least_eraseLayout wf returned continues]
      exact ⟨And.left, fun known => ⟨known, id⟩⟩
  · obtain ⟨set, answer, members⟩ := layout s state found
    obtain ⟨set', answer', members'⟩ := layout' s state found
    refine ⟨set, set', answer, answer', fun l member => ?_, fun continues => BitSet.ext fun l => ?_⟩
    · obtain ⟨known, other⟩ := least_eraseLayout_subset ((members' l).mp member)
      exact BitSet.mem_erase.mpr ⟨(members l).mpr known, other⟩
    · rw [BitSet.mem_erase, members, members', least_eraseLayout wf returned continues]
      exact Iff.rfl

-- With blanks around the input, `A -> . A b` is visited and finds `b` behind it; without them it is not.
theorem table_without_layout_unfinished : (unfinished {⟨0⟩}).Accepted ∧ (unfinished {⟨0⟩}).eraseLayout ⟨0⟩ = unfinished ∅ ∧
    ∃ a table table', (unfinished {⟨0⟩}).automaton = .ok a ∧ (unfinished ∅).automaton = .ok a ∧
      a.table (unfinished {⟨0⟩}) (unfinished {⟨0⟩}).context = .ok table ∧
      a.table (unfinished ∅) (unfinished ∅).context = .ok table' ∧
      a.item 0 2 = .ok ⟨.rule 1, 0⟩ ∧ table.lookahead 0 2 = .ok {⟨1⟩} ∧ table'.lookahead 0 2 = .ok ∅ := by
  have accepted : (unfinished {⟨0⟩}).Accepted := accepted_of_define (unfinishedSteps [⟨0⟩]) (by decide +kernel)
  have shown : (do
      let a ← (unfinished {⟨0⟩}).automaton
      return (← a.item 0 2, ← (← a.table (unfinished {⟨0⟩}) (unfinished {⟨0⟩}).context).lookahead 0 2,
        ← (← a.table (unfinished ∅) (unfinished ∅).context).lookahead 0 2)) =
      Except.ok (⟨.rule 1, 0⟩, {⟨1⟩}, ∅) := by
    decide +kernel
  simp only [bind_eq_ok_iff, pure, Except.pure, Except.ok.injEq, Prod.mk.injEq] at shown
  obtain ⟨a, returned, item, at', table, ran, set, answer, table', ran', set', answer', rfl, rfl, rfl⟩ := shown
  have same : (unfinished {⟨0⟩}).eraseLayout ⟨0⟩ = unfinished ∅ := by decide +kernel
  exact ⟨accepted, same, a, table, table', returned, same ▸ automaton_eraseLayout.trans returned, ran, ran', at', answer, answer'⟩

theorem table_without_layout_composed : composed.Accepted ∧ composed.Continues ∧ ∃ a table table' set,
    composed.automaton = .ok a ∧ a.table composed composed.context = .ok table ∧
      a.table (composed.eraseLayout ⟨1⟩) (composed.eraseLayout ⟨1⟩).context = .ok table' ∧
      table.lookahead 5 2 = .ok set ∧ table'.lookahead 5 2 = .ok set := by
  obtain ⟨a, returned⟩ : ∃ a, composed.automaton = .ok a := exists_of_isOk (by decide +kernel)
  have shown : (composed.automaton.bind fun a => a.item 5 2).isOk = true := by decide +kernel
  rw [returned] at shown
  obtain ⟨item, at'⟩ := exists_of_isOk shown
  have continues := continues_of_productive composed_accepted.wellFormed composed_productive
  obtain ⟨-, table, table', ran, ran', lookahead, -⟩ := table_without_layout composed_accepted returned ⟨1⟩
  obtain ⟨set, set', answer, answer', -, same⟩ := lookahead 5 2 item at'
  exact ⟨composed_accepted, continues, a, table, table', set, returned, ran, ran', answer, same continues ▸ answer'⟩

end Grammar

end Lookahead
