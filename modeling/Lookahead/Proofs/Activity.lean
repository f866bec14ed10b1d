import Lookahead.Proofs.Exact

set_option autoImplicit false

namespace Lookahead

namespace Grammar

variable {g : Grammar} {a : Automaton}

-- Whatever stands behind a nonterminal of a production in use can vanish or begin with some terminal.
def Continues (g : Grammar) : Prop :=
  ∀ id p α n β, g.production? id = some p → (p.left = .start ∨ g.Reachable p.left) →
    p.right.toList = α ++ .nonterminal n :: β → g.Vanishes β ∨ ∃ t, g.Begins β t

theorem continues_of_productive (wf : g.WellFormed) (productive : ∀ n, g.Reachable n → g.Productive n) : g.Continues := by
  intro id p α n β found outer split
  obtain ⟨w, yields⟩ := yields_behind wf productive found outer (α := α ++ [.nonterminal n]) (β := β) (by simp [split]) .refl
  cases w with
  | nil => exact .inl yields.derives
  | cons t w => exact .inr ⟨t, yields.begins⟩

theorem split_of_symbolAfterDot? {item : Item} {x : Symbol} (after : g.symbolAfterDot? item = some x) :
    ∃ p α β, g.production? item.production = some p ∧ p.right.toList = α ++ x :: β ∧ α.length = item.position := by
  obtain ⟨p, found, at'⟩ := Option.bind_eq_some_iff.mp after
  obtain ⟨bound, rfl⟩ := Array.getElem?_eq_some_iff.mp at'
  have inside : item.position < p.right.toList.length := by simpa using bound
  refine ⟨p, p.right.toList.take item.position, p.right.toList.drop (item.position + 1), found, ?_, ?_⟩
  · rw [← Array.getElem_toList, ← List.drop_eq_getElem_cons inside, List.take_append_drop]
  · exact List.length_take_of_le (Nat.le_of_lt inside)

theorem Valid.reachable (wf : g.WellFormed) {γ : List Symbol} {item : Item} (valid : g.Valid γ item) {p : Production}
    (found : g.production? item.production = some p) : g.InUse p.left := by
  induction valid generalizing p with
  | start =>
      cases found
      exact .inl rfl
  | move γ item x _ _ _ ih => exact ih found
  | enter γ item n id q _ after found' left ih =>
      obtain ⟨p', α, β, outer, split, -⟩ := split_of_symbolAfterDot? after
      rw [found', Option.some.injEq] at found
      subst found left
      exact .inr (reachable_of_split wf outer (ih outer) split)

theorem Valid.of_start (wf : g.WellFormed) {γ : List Symbol} (valid : g.Valid γ .start) : γ = [] := by
  rcases valid.source with ⟨empty, -⟩ | ⟨δ, x, source, -, -, -, path⟩
  · exact empty
  · rcases Relation.ReflTransGen.cases_tail path with same | ⟨item, -, step⟩
    · exact absurd (congrArg Item.position same) (Nat.succ_ne_zero source.position).symm
    · exact absurd rfl (wf.opens_ne_start step)

theorem start_of_moveSymbol? {item : Item} {x : Symbol} (augmented : item.production = .accept)
    (move : g.moveSymbol? item = some x) : item = .start := by
  obtain ⟨after, inner⟩ := moveSymbol?_eq_some_iff.mp move
  obtain ⟨id, n⟩ := item
  cases augmented
  change g.accept.right[n]? = some x at after
  match n with
  | 0 => rfl
  | 1 => exact absurd (Option.some.inj after).symm inner
  | n + 2 => simp [accept] at after

theorem place_of_moveSymbol? (wf : g.WellFormed) (returned : g.automaton = .ok a) {s k : Nat} {item : Item} {x : Symbol}
    (at' : a.item s k = .ok item) (augmented : item.production = .accept) (move : g.moveSymbol? item = some x) :
    s = 0 ∧ k = 0 ∧ item = .start := by
  obtain rfl := start_of_moveSymbol? augmented move
  obtain ⟨γ, path⟩ := follow_of_item returned at'
  obtain rfl := (valid_of_item wf returned path at').of_start wf
  cases path
  exact ⟨rfl, item_injective returned at' (item_start returned), rfl⟩

-- What the entries of the first item have, and what a move and an entry take over from an item, all items have but
-- those of the augmented production: the induction follows the rules by which items are valid.
theorem declared_induct (wf : g.WellFormed) (returned : g.automaton = .ok a) (holds : Nat → Nat → Prop)
    (first : ∀ i, g.Dotted a 0 0 g.accept [] [.nonterminal g.startSymbol, .terminal .endOfInput] →
      g.Enters a 0 i g.startSymbol → holds 0 i)
    (move : ∀ s k x t j, a.Goes s k x t j → x ≠ .terminal .endOfInput → holds s k → holds t j)
    (enter : ∀ s k i p α β n, g.Dotted a s k p α (.nonterminal n :: β) → g.InUse p.left →
      g.Enters a s i n → holds s k → holds s i)
    {γ : List Symbol} {item : Item} (valid : g.Valid γ item) (declared : item.production ≠ .accept)
    {s i : Nat} (path : a.follow 0 γ = .ok s) (at' : a.item s i = .ok item) : holds s i := by
  induction valid generalizing s i with
  | start => exact absurd rfl declared
  | move γ item x valid after inner ih =>
      obtain ⟨u, k, path', atK⟩ := item_of_valid wf returned valid
      obtain ⟨p, α, β, found, split, length⟩ := split_of_symbolAfterDot? after
      have here : g.Dotted a u k p α (x :: β) := ⟨item.production, by rw [length]; exact atK, found, split⟩
      obtain ⟨v, j, step, goes, -, same⟩ := here.step returned inner
      have arrived := Automaton.follow_append_iff.mpr ⟨u, path', Automaton.follow_singleton.trans step⟩
      rw [path, Except.ok.injEq] at arrived
      subst arrived
      have atJ : a.item s j = .ok item.advance := by
        rw [same item.production (by rw [length]; exact atK), Item.advance, List.length_append, length]
        rfl
      obtain rfl := item_injective returned at' atJ
      exact move u k x s i goes inner (ih declared path' atK)
  | enter γ item n id q valid after found left ih =>
      obtain ⟨u, k, path', atK⟩ := item_of_valid wf returned valid
      rw [path, Except.ok.injEq] at path'
      subst path'
      obtain ⟨p, α, β, outer, split, length⟩ := split_of_symbolAfterDot? after
      have here : g.Dotted a s k p α (.nonterminal n :: β) := ⟨item.production, by rw [length]; exact atK, outer, split⟩
      have entry : g.Enters a s i n := ⟨q, q.right.toList, ⟨id, at', found, rfl⟩, left⟩
      by_cases augmented : item.production = .accept
      · obtain ⟨rfl, rfl, rfl⟩ := place_of_moveSymbol? wf returned atK augmented (moveSymbol?_eq_some_iff.mpr ⟨after, by simp⟩)
        cases outer
        obtain ⟨rfl, rfl, rfl⟩ := accept_split split
        exact first i here entry
      · exact enter s k i p α β n here (valid.reachable wf outer) entry (ih augmented path atK)

section

variable {F : Set Fact} (wf : g.WellFormed) (returned : g.automaton = .ok a) (closed : g.Closed a F)
  (continues : g.Continues)
include wf returned closed continues

theorem lookahead_of_valid {γ : List Symbol} {item : Item} (valid : g.Valid γ item) (declared : item.production ≠ .accept)
    {s i : Nat} (path : a.follow 0 γ = .ok s) (at' : a.item s i = .ok item) : ∃ t, .item s i (.lookahead t) ∈ F := by
  refine declared_induct wf returned (fun s i => ∃ t, .item s i (.lookahead t) ∈ F) (fun i here entry => ?_)
    (fun s k x t j goes inner held => ?_) (fun s k i p α β n here outer entry held => ?_) valid declared path at'
  · -- The end of input follows.
    exact ⟨.endOfInput, closed.passed 0 0 (.inl ⟨rfl, rfl⟩) _ (.first i _ _ _ _ _ here entry ⟨[], .refl⟩)⟩
  · obtain ⟨u, known⟩ := held
    exact ⟨u, closed.passed s k (.inr ⟨_, known⟩) _ (.move x t j _ goes inner known)⟩
  · obtain ⟨t, known⟩ := held
    have ⟨id, _, found, split⟩ := here
    rcases continues id p α n β found outer split with gone | ⟨u, begins⟩
    · exact ⟨t, closed.passed s k (.inr ⟨_, known⟩) _ (.lookahead i p α β n t here entry gone known)⟩
    · exact ⟨u, closed.passed s k (.inr ⟨_, known⟩) _ (.first i p α β n u here entry begins)⟩

theorem active_of_moveSymbol? {s k : Nat} {item : Item} {x : Symbol} (at' : a.item s k = .ok item)
    (move : g.moveSymbol? item = some x) : Active F s k := by
  by_cases augmented : item.production = .accept
  · obtain ⟨rfl, rfl, -⟩ := place_of_moveSymbol? wf returned at' augmented move
    exact .inl ⟨rfl, rfl⟩
  · obtain ⟨γ, path⟩ := follow_of_item returned at'
    obtain ⟨t, known⟩ := lookahead_of_valid wf returned closed continues (valid_of_item wf returned path at') augmented path at'
    exact .inr ⟨_, known⟩

end

theorem table_first_passed (accepted : g.Accepted) (returned : g.automaton = .ok a) :
    ∃ table, a.table g g.context = .ok table ∧
      ∀ s k i id id' p q α β, a.item s k = .ok ⟨id, α.length⟩ → g.production? id = some p →
        p.right.toList = α ++ .nonterminal q.left :: β → a.item s i = .ok ⟨id', 0⟩ → g.production? id' = some q →
        (g.Continues ∨ Active (g.least a) s k) →
        ∃ o set, g.context.prospect β = .ok o ∧ table.lookahead s i = .ok set ∧ o.first ⊆ set := by
  have wf := accepted.wellFormed
  have closed : g.Closed a (g.least a) := isLeast_least.1
  obtain ⟨table, ran, exact, -⟩ := table_exact wf returned
  refine ⟨table, ran, fun s k i id id' p q α β at' found split atI found' visited => ?_⟩
  have here : g.Dotted a s k p α (.nonterminal q.left :: β) := ⟨id, at', found, split⟩
  have entry : g.Enters a s i q.left := ⟨q, q.right.toList, ⟨id', atI, found', rfl⟩, rfl⟩
  have active : Active (g.least a) s k := by
    rcases visited with continues | active
    · exact active_of_moveSymbol? wf returned closed continues at'
        (moveSymbol?_eq_some_iff.mpr ⟨symbolAfterDot?_eq found split, by simp⟩)
    · exact active
  obtain ⟨o, prospect, first, -⟩ := Context.prospect_exact wf β fun x member =>
    wf.knows_right found (Array.mem_toList_iff.mp (by simp [split, member]))
  obtain ⟨set, answer, members⟩ := exact s i _ atI
  exact ⟨o, set, prospect, answer, fun t member => (members t).mpr
    (closed.passed s k active _ (.first i p α β q.left t here entry ((first t).mp member)))⟩

end Grammar

-- A statement consists of something that can be continued and of something that no rule derives.
def unfinished (layout : LayoutSet) : Grammar where
  terminals := #["#EOI", "b", "d"]
  layouts := #["WS"]
  nonterminals := #["#Start", "S", "A", "U"]
  rules := #[
    ⟨⟨1⟩, #[Example.n 2, Example.n 3], ∅⟩,
    ⟨⟨2⟩, #[Example.n 2, Example.t 1], ∅⟩,
    ⟨⟨2⟩, #[Example.t 2], ∅⟩]
  startSymbol := ⟨1⟩
  startLayout := layout

def unfinishedSteps (layout : List Layout) : List Step :=
  [.layout "WS", .terminal "b", .terminal "d", .nonterminal "S", .nonterminal "A", .nonterminal "U", .startLayout layout,
    .production [] ⟨1⟩ #[Example.n 2, Example.n 3], .production [] ⟨2⟩ #[Example.n 2, Example.t 1],
    .production [] ⟨2⟩ #[Example.t 2]]

namespace Grammar

-- `A -> . A b` is its own entry, but never visited, and so `b` is missing behind it.
theorem table_first_missed : (unfinished ∅).Accepted ∧ ∃ a table, (unfinished ∅).automaton = .ok a ∧
    a.table (unfinished ∅) (unfinished ∅).context = .ok table ∧ a.item 0 2 = .ok ⟨.rule 1, 0⟩ ∧
    (unfinished ∅).production? (.rule 1) = some ⟨⟨2⟩, #[Example.n 2, Example.t 1], ∅⟩ ∧
    ∃ o set, (unfinished ∅).context.prospect [Example.t 1] = .ok o ∧ table.lookahead 0 2 = .ok set ∧
      ¬ o.first ⊆ set := by
  have accepted : (unfinished ∅).Accepted := accepted_of_define (unfinishedSteps []) (by decide +kernel)
  have shown : (do
      let a ← (unfinished ∅).automaton
      return (← a.item 0 2, ← (unfinished ∅).context.prospect [Example.t 1],
        ← (← a.table (unfinished ∅) (unfinished ∅).context).lookahead 0 2)) =
      Except.ok (⟨.rule 1, 0⟩, ⟨{⟨1⟩}, false⟩, ∅) := by
    decide +kernel
  simp only [bind_eq_ok_iff, pure, Except.pure, Except.ok.injEq, Prod.mk.injEq] at shown
  obtain ⟨a, returned, item, at', o, prospect, table, ran, set, answer, rfl, rfl, rfl⟩ := shown
  exact ⟨accepted, a, table, returned, ran, at', rfl, _, _, prospect, answer, by decide⟩

theorem table_first_passed_composed : composed.Accepted ∧ composed.Continues ∧ ∃ a table s set,
    composed.automaton = .ok a ∧ a.table composed composed.context = .ok table ∧
      a.follow 0 [Example.n 1, Example.t 1, Example.t 2, Example.t 3] = .ok s ∧ a.item s 0 = .ok ⟨.rule 2, 3⟩ ∧
      a.item s 2 = .ok ⟨.rule 4, 0⟩ ∧ table.lookahead s 2 = .ok set ∧ ⟨4⟩ ∈ set := by
  have shown : (do
      let a ← composed.automaton
      let s ← a.follow 0 [Example.n 1, Example.t 1, Example.t 2, Example.t 3]
      return (← a.item s 0, ← a.item s 2, ← composed.context.prospect [Example.t 4])) =
      Except.ok (⟨.rule 2, 3⟩, ⟨.rule 4, 0⟩, ⟨{⟨4⟩}, false⟩) := by
    decide +kernel
  simp only [bind_eq_ok_iff, pure, Except.pure, Except.ok.injEq, Prod.mk.injEq] at shown
  obtain ⟨a, returned, s, path, _, at', _, atI, _, prospect, rfl, rfl, rfl⟩ := shown
  have continues := continues_of_productive composed_accepted.wellFormed composed_productive
  obtain ⟨table, ran, passed⟩ := table_first_passed composed_accepted returned
  obtain ⟨o, set, prospect', answer, first⟩ := passed s 0 2 (.rule 2) (.rule 4) _ ⟨⟨3⟩, #[Example.n 4], {⟨0⟩}⟩
    [Example.t 1, Example.t 2, Example.t 3] [Example.t 4] at' rfl rfl atI rfl (.inl continues)
  rw [prospect, Except.ok.injEq] at prospect'
  exact ⟨composed_accepted, continues, a, table, s, set, returned, ran, path, at', atI, answer, first _ (prospect' ▸ by decide)⟩

end Grammar

end Lookahead
