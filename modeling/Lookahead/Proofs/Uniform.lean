import Lookahead.Proofs.Activity

set_option autoImplicit false

namespace Lookahead

def Fact.Within (layout : LayoutSet) : Fact → Prop
  | .item _ _ (.lookahead _) => True
  | .item _ _ (.opening l) => l ∈ layout
  | .item _ _ (.closing l) => l ∈ layout
  | .state _ l => l ∈ layout

namespace Grammar

variable {g : Grammar} {a : Automaton}

def Uniform (g : Grammar) (layout : LayoutSet) : Prop := g.startLayout = layout ∧ ∀ p ∈ g.rules, p.layout = layout

theorem Uniform.layout {layout : LayoutSet} (uniform : g.Uniform layout) {id : ProductionId} {p : Production}
    (found : g.production? id = some p) : p.layout = layout := by
  cases id with
  | rule i => exact uniform.2 p (Array.mem_of_getElem? found)
  | accept =>
      cases found
      exact uniform.1

theorem Uniform.dotted {layout : LayoutSet} (uniform : g.Uniform layout) {s k : Nat} {p : Production} {α β : List Symbol}
    (here : g.Dotted a s k p α β) : p.layout = layout := by
  obtain ⟨id, -, found, -⟩ := here
  exact uniform.layout found

theorem closed_within {layout : LayoutSet} (uniform : g.Uniform layout) : g.Closed a {fact | fact.Within layout} := by
  refine ⟨fun l member => uniform.1 ▸ member, fun s k _ fact passes => ?_⟩
  cases passes with
  | first => trivial
  | lookahead => trivial
  | opening i p β n l here entry known => exact known
  | between i p α β n l here entry inside admitted => exact uniform.dotted here ▸ admitted
  | gap i p α β n l here entry around admitted => exact uniform.dotted here ▸ admitted
  | closing i p α β n l here entry gone known => exact known
  | move x t j y step inner known => cases y <;> exact known
  | arrive x t j p α β l step inner there more admitted => exact uniform.dotted there ▸ admitted
  | before p β l here known => exact known
  | behind p α β l here gone known => exact known

section

variable {F : Set Fact} {layout : LayoutSet} (wf : g.WellFormed) (returned : g.automaton = .ok a) (closed : g.Closed a F)
  (continues : g.Continues) (uniform : g.Uniform layout) {l : Layout} (admitted : l ∈ layout)
include wf returned closed continues uniform admitted

-- The layout gets behind every item but those of the augmented production: where a terminal can follow an entry, or
-- the dot is not at the left end, it comes from the production of the item, and otherwise from behind the item.
theorem closing_of_valid {γ : List Symbol} {item : Item} (valid : g.Valid γ item) (declared : item.production ≠ .accept)
    {s i : Nat} (path : a.follow 0 γ = .ok s) (at' : a.item s i = .ok item) : .item s i (.closing l) ∈ F := by
  refine declared_induct wf returned (fun s i => .item s i (.closing l) ∈ F) (fun i here entry => ?_)
    (fun s k x t j goes inner known => ?_) (fun s k i p α β n here outer entry known => ?_) valid declared path at'
  · have ends : ∃ t, g.Begins [.terminal .endOfInput] t := ⟨.endOfInput, [], .refl⟩
    exact closed.passed 0 0 (.inl ⟨rfl, rfl⟩) _ (.gap i _ _ _ _ l here entry (.inr ends) (uniform.dotted here ▸ admitted))
  · exact closed.passed s k (.inr ⟨_, known⟩) _ (.move x t j _ goes inner known)
  · by_cases around : α ≠ [] ∨ ∃ t, g.Begins β t
    · exact closed.passed s k (.inr ⟨_, known⟩) _ (.gap i p α β n l here entry around (uniform.dotted here ▸ admitted))
    · have ⟨id, _, found, split⟩ := here
      have gone : g.Vanishes β := (continues id p α n β found outer split).resolve_right fun some => around (.inr some)
      exact closed.passed s k (.inr ⟨_, known⟩) _ (.closing i p α β n l here entry gone known)

theorem layout_of_follow {γ : List Symbol} {s : Nat} (path : a.follow 0 γ = .ok s) : .state s l ∈ F := by
  cases γ using List.reverseRecOn with
  | nil =>
      cases path
      have known : .item 0 0 (.opening l) ∈ F := closed.start l (uniform.1 ▸ admitted)
      exact closed.passed 0 0 (.inl ⟨rfl, rfl⟩) _ (.before g.accept _ l (dotted_start returned) known)
  | append_singleton γ x =>
      obtain ⟨u, path', step⟩ := Automaton.follow_append_iff.mp path
      obtain ⟨edge, taken, rfl⟩ := Automaton.transition_eq_ok_iff.mp (Automaton.follow_singleton.symm.trans step)
      obtain ⟨k, j, moved⟩ := exists_move returned taken
      obtain ⟨item, atK, move, atJ⟩ := move_sound returned taken moved
      have active := active_of_moveSymbol? wf returned closed continues atK move
      obtain ⟨after, inner⟩ := moveSymbol?_eq_some_iff.mp move
      obtain ⟨p, α, β, found, split, length⟩ := split_of_symbolAfterDot? after
      have there : g.Dotted a edge.target j p (α ++ [x]) β := by
        refine ⟨item.production, ?_, found, by simp [split]⟩
        rw [atJ, Item.advance, List.length_append, length]
        rfl
      cases β with
      | cons y β =>
          exact closed.passed u k active _ (.arrive x edge.target j p _ _ l ⟨edge, taken, rfl, moved⟩ inner there (by simp)
            (uniform.dotted there ▸ admitted))
      | nil =>
          have declared : item.production ≠ .accept := by
            intro augmented
            obtain rfl := start_of_moveSymbol? augmented move
            cases found
            obtain rfl : α = [] := List.length_eq_zero_iff.mp length
            simp [accept] at split
          have known := closing_of_valid wf returned closed continues uniform admitted
            (valid_of_item wf returned path atJ) declared path atJ
          exact closed.passed edge.target j (.inr ⟨_, known⟩) _ (.behind p _ [] l there .refl known)

end

theorem table_layout_uniform (accepted : g.Accepted) (returned : g.automaton = .ok a)
    (productive : ∀ n, g.Reachable n → g.Productive n) (layout : LayoutSet) (around : g.startLayout = layout)
    (between : ∀ p ∈ g.rules, p.layout = layout) :
    ∃ table, a.table g g.context = .ok table ∧ ∀ s, s < a.size → table.layout s = .ok layout := by
  have wf := accepted.wellFormed
  have uniform : g.Uniform layout := ⟨around, between⟩
  have closed : g.Closed a (g.least a) := isLeast_least.1
  obtain ⟨table, ran, -, exact⟩ := table_exact wf returned
  refine ⟨table, ran, fun s bound => ?_⟩
  obtain ⟨state, here⟩ : ∃ state, a.states[s]? = some state := ⟨_, Array.getElem?_eq_getElem bound⟩
  obtain ⟨kernel, known, -⟩ := (getElem?_states_iff returned).mp here
  obtain ⟨γ, path⟩ := follow_of_number returned known
  obtain ⟨set, answer, members⟩ := exact s state (Automaton.state_eq_ok_iff.mpr here)
  rw [answer, Except.ok.injEq]
  refine BitSet.ext fun l => (members l).trans ⟨fun held => ?_, fun admitted => ?_⟩
  · exact isLeast_least.2 (closed_within uniform) held
  · exact layout_of_follow wf returned closed (continues_of_productive wf productive) uniform admitted path

end Grammar

def withNullable : Grammar where
  terminals := #["#EOI", "`(`", "`)`", "`+`", "`a`", "NUM"]
  layouts := #["WS"]
  nonterminals := #["#Start", "expr", "term", "nullable"]
  rules := #[
    ⟨⟨1⟩, #[Example.n 1, Example.t 3, Example.n 2, Example.n 3], {⟨0⟩}⟩,
    ⟨⟨1⟩, #[Example.n 2], {⟨0⟩}⟩,
    ⟨⟨2⟩, #[Example.t 4], {⟨0⟩}⟩,
    ⟨⟨2⟩, #[Example.t 1, Example.n 1, Example.n 3, Example.t 2], {⟨0⟩}⟩,
    ⟨⟨2⟩, #[Example.n 3, Example.t 4], {⟨0⟩}⟩,
    ⟨⟨3⟩, #[], {⟨0⟩}⟩,
    ⟨⟨3⟩, #[Example.t 5], {⟨0⟩}⟩]
  startSymbol := ⟨1⟩
  startLayout := {⟨0⟩}

theorem withNullable_accepted : withNullable.Accepted :=
  Grammar.accepted_of_define Example.withNullable.steps (by decide +kernel)

namespace Grammar

theorem withNullable_productive (n : Nonterminal) (reachable : withNullable.Reachable n) : withNullable.Productive n := by
  have number : withNullable.Productive ⟨3⟩ := productive_of_rule 5 (by decide) (by simp [withNullable])
  have term : withNullable.Productive ⟨2⟩ := productive_of_rule 2 (by decide) (by simp [withNullable, Example.t])
  have expr : withNullable.Productive ⟨1⟩ := productive_of_rule 1 (by decide) (by simpa [withNullable, Example.n] using term)
  have whole : withNullable.Productive ⟨0⟩ := productive_of_production .accept withNullable.accept rfl
    (by simpa [mem_accept_right, withNullable] using expr)
  have known : n.index < 4 := reachable.knows withNullable_accepted.wellFormed
  obtain ⟨i⟩ := n
  interval_cases i
  · exact whole
  · exact expr
  · exact term
  · exact number

theorem table_layout_uniform_withNullable : withNullable.Accepted ∧
    (∀ n, withNullable.Reachable n → withNullable.Productive n) ∧ withNullable.startLayout = {⟨0⟩} ∧
    (∀ p ∈ withNullable.rules, p.layout = {⟨0⟩}) ∧ ∃ a table s, withNullable.automaton = .ok a ∧
      a.table withNullable withNullable.context = .ok table ∧ a.follow 0 [Example.n 2] = .ok s ∧
      s < a.size ∧ table.layout s = .ok {⟨0⟩} := by
  have uniform : ∀ p ∈ withNullable.rules, p.layout = {⟨0⟩} := by decide
  have shown : (do
      let a ← withNullable.automaton
      let s ← a.follow 0 [Example.n 2]
      return (s, a.size)) = Except.ok (2, 14) := by
    decide +kernel
  simp only [bind_eq_ok_iff, pure, Except.pure, Except.ok.injEq, Prod.mk.injEq] at shown
  obtain ⟨a, returned, s, path, rfl, size⟩ := shown
  obtain ⟨table, ran, all⟩ := table_layout_uniform withNullable_accepted returned withNullable_productive {⟨0⟩} rfl uniform
  have bound : 2 < a.size := by omega
  exact ⟨withNullable_accepted, withNullable_productive, rfl, uniform, a, table, 2, returned, ran, path, bound, all 2 bound⟩

end Grammar

end Lookahead
