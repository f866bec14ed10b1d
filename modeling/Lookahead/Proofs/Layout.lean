import Lookahead.Proofs.Passage
import Lookahead.Proofs.Table
import Lookahead.Proofs.Tree

set_option autoImplicit false

namespace Lookahead

namespace Grammar

variable {g : Grammar} {a : Automaton}

theorem Derived.complete (wf : g.WellFormed) {tree : Trees} (derived : g.Derived tree [.nonterminal .start]) :
    ∃ id p children, tree = .node .accept (.node id children (.leaf .endOfInput .nil)) .nil ∧
      g.production? id = some p ∧ p.left = g.startSymbol ∧ g.Derived children p.right.toList := by
  obtain ⟨id, p, whole, rest, rfl, found, left, below, behind⟩ := derived.cons_nonterminal
  obtain rfl := behind.eq_nil
  obtain rfl := (wf.left_eq_start_iff found).mp left
  cases found
  obtain ⟨id, q, children, ended, rfl, found, left, inner, last⟩ :=
    Derived.cons_nonterminal (n := g.startSymbol) (β := [.terminal .endOfInput]) below
  obtain ⟨nothing, rfl, empty⟩ := last.cons_terminal
  obtain rfl := empty.eq_nil
  exact ⟨id, q, children, rfl, found, left, inner⟩

structure Entry (g : Grammar) (a : Automaton) (F : Set Fact) (s k : Nat) (p : Production) (γ : List Symbol) (i : Nat)
    (id : ProductionId) (q : Production) : Prop where
  item : a.item s i = .ok ⟨id, 0⟩
  here : g.Dotted a s i q [] q.right.toList
  inner : .terminal .endOfInput ∉ q.right.toList
  first : Active F s k → ∀ t, g.Begins γ t → .item s i (.lookahead t) ∈ F
  gap : Active F s k → ∀ t, g.Begins γ t → ∀ l ∈ p.layout, .item s i (.closing l) ∈ F
  lookahead : g.Vanishes γ → ∀ t, .item s k (.lookahead t) ∈ F → .item s i (.lookahead t) ∈ F
  closing : g.Vanishes γ → ∀ l, .item s k (.closing l) ∈ F → .item s i (.closing l) ∈ F

-- An entry gets a look-ahead either from what follows it or, if that is gone, from the item.
theorem Entry.known {F : Set Fact} {s k i : Nat} {p q : Production} {γ : List Symbol} {id : ProductionId}
    (entry : g.Entry a F s k p γ i id q) {rest : Trees} (behind : g.Derived rest γ) {t : Terminal}
    (known : .item s k (.lookahead t) ∈ F) : ∃ v, .item s i (.lookahead v) ∈ F := by
  by_cases last : rest.tokens = []
  · exact ⟨t, entry.lookahead (behind.vanishes last) t known⟩
  · obtain ⟨v, begins⟩ := behind.begins last
    exact ⟨v, entry.first (.inr ⟨_, known⟩) v begins⟩

section

variable {F : Set Fact} (returned : g.automaton = .ok a) (closed : g.Closed a F)
include returned closed

theorem entry_of_dotted (wf : g.WellFormed) {s k : Nat} {p q : Production} {α γ : List Symbol} {id : ProductionId}
    (here : g.Dotted a s k p α (.nonterminal q.left :: γ)) (found : g.production? id = some q) :
    ∃ i, g.Entry a F s k p γ i id q := by
  obtain ⟨i, at', there⟩ := here.enters returned wf found
  have entry : g.Enters a s i q.left := ⟨q, _, there, rfl⟩
  have inner : .terminal .endOfInput ∉ q.right.toList := by
    obtain ⟨id', -, found', split⟩ := here
    exact wf.endOfInput_not_mem_of_split found (wf.ne_start_of_split found' split) (List.append_nil _).symm
  exact ⟨i, at', there, inner,
    fun active t begins => closed.passed s k active _ (.first i p α γ q.left t here entry begins),
    fun active t begins l admitted => closed.passed s k active _ (.gap i p α γ q.left l here entry (.inr ⟨t, begins⟩) admitted),
    fun gone t known => closed.passed s k (.inr ⟨_, known⟩) _ (.lookahead i p α γ q.left t here entry gone known),
    fun gone l known => closed.passed s k (.inr ⟨_, known⟩) _ (.closing i p α γ q.left l here entry gone known)⟩

theorem pass_symbol {s k : Nat} {p : Production} {α γ σ : List Symbol} {x : Symbol} (here : g.Dotted a s k p α (x :: γ))
    (inner : x ≠ .terminal .endOfInput) (path : a.follow 0 σ = .ok s) :
    ∃ u j, a.follow 0 (σ ++ [x]) = .ok u ∧ a.Goes s k x u j ∧ g.Dotted a u j p (α ++ [x]) γ ∧
      (∀ id, a.item s k = .ok ⟨id, α.length⟩ → a.item u j = .ok ⟨id, (α ++ [x]).length⟩) ∧
      ∀ y, .item s k y ∈ F → .item u j y ∈ F := by
  obtain ⟨u, j, step, goes, there, same⟩ := here.step returned inner
  refine ⟨u, j, Automaton.follow_append_iff.mpr ⟨s, path, Automaton.follow_singleton.trans step⟩, goes, there, same, ?_⟩
  exact fun y known => closed.passed s k (.inr ⟨y, known⟩) _ (.move x u j y goes inner known)

variable (wf : g.WellFormed)
include wf

theorem closing_admitted {trees : Trees} {β : List Symbol} (derived : g.Derived trees β) {s k : Nat} {p : Production}
    {α σ : List Symbol} (here : g.Dotted a s k p α β) (inner : .terminal .endOfInput ∉ β)
    (path : a.follow 0 σ = .ok s) (some : trees.tokens ≠ []) :
    ∃ u, a.follow 0 (g.stackAfter σ trees (trees.tokens.length - 1)) = .ok u ∧
      ∀ l, .item s k (.closing l) ∈ F → .state u l ∈ F := by
  induction derived generalizing s k p α σ with
  | nil => exact absurd rfl some
  | leaf t rest γ behind ih =>
      have first : Symbol.terminal t ≠ .terminal .endOfInput := fun same => inner (same ▸ List.mem_cons_self)
      obtain ⟨u, j, path', -, there, -, kept⟩ := pass_symbol returned closed here first path
      by_cases last : rest.tokens = []
      · refine ⟨u, ?_, fun l known => closed.passed u j (.inr ⟨_, kept _ known⟩) _ ?_⟩
        · rw [Trees.tokens, last, List.length_singleton, Nat.sub_self, stackAfter_leaf_zero]
          exact path'
        · exact .behind p _ γ l there (behind.vanishes last) (kept _ known)
      · obtain ⟨v, path'', admitted⟩ := ih there (fun member => inner (List.mem_cons_of_mem _ member)) path' last
        refine ⟨v, ?_, fun l known => admitted l (kept _ known)⟩
        obtain ⟨n, length⟩ := Nat.exists_eq_succ_of_ne_zero (fun zero => last (List.length_eq_zero_iff.mp zero))
        rw [length, Nat.succ_sub_one] at path''
        rw [Trees.tokens, List.length_cons, length, Nat.add_sub_cancel, Nat.succ_eq_add_one, stackAfter_leaf_succ]
        exact path''
  | node id q children rest γ found below behind ihBelow ihBehind =>
      by_cases last : rest.tokens = []
      · have inside : children.tokens ≠ [] := fun none => some (by rw [Trees.tokens, none, last]; rfl)
        obtain ⟨i, entry⟩ := entry_of_dotted returned closed wf here found
        obtain ⟨u, path', admitted⟩ := ihBelow entry.here entry.inner path inside
        refine ⟨u, ?_, fun l known => admitted l (entry.closing (behind.vanishes last) l known)⟩
        rw [Trees.tokens, last, List.append_nil, stackAfter_node_of_lt]
        · exact path'
        · exact Nat.sub_lt (List.length_pos_iff.mpr inside) Nat.one_pos
      · obtain ⟨u, j, path', -, there, -, kept⟩ := pass_symbol returned closed here (by simp) path
        obtain ⟨v, path'', admitted⟩ := ihBehind there (fun member => inner (List.mem_cons_of_mem _ member)) path' last
        refine ⟨v, ?_, fun l known => admitted l (kept _ known)⟩
        have positive : 0 < rest.tokens.length := List.length_pos_iff.mpr last
        have index : children.tokens.length + rest.tokens.length - 1 - children.tokens.length = rest.tokens.length - 1 := by omega
        rw [Trees.tokens, List.length_append, stackAfter_node_of_le σ rest found below (by omega), index]
        exact path''

theorem layout_behind_node {children : Trees} {s k : Nat} {p q : Production} {α γ σ : List Symbol} {id : ProductionId}
    (here : g.Dotted a s k p α (.nonterminal q.left :: γ)) (active : Active F s k) (found : g.production? id = some q)
    (below : g.Derived children q.right.toList) (path : a.follow 0 σ = .ok s) (some : children.tokens ≠ [])
    (begins : ∃ t, g.Begins γ t) : ∃ u, a.follow 0 (g.stackAfter σ children (children.tokens.length - 1)) = .ok u ∧
      ∀ l ∈ p.layout, .state u l ∈ F := by
  obtain ⟨t, begins⟩ := begins
  obtain ⟨i, entry⟩ := entry_of_dotted returned closed wf here found
  obtain ⟨u, path', admitted⟩ := closing_admitted returned closed wf below entry.here entry.inner path some
  exact ⟨u, path', fun l member => admitted l (entry.gap active t begins l member)⟩

-- An item with a look-ahead in front of trees: the lowest production around two neighbouring tokens of
-- theirs, or the production of the item if no tree has both, finds its layout admitted.
theorem layout_within {trees : Trees} {β : List Symbol} (derived : g.Derived trees β) {s k n : Nat} {id : ProductionId}
    {p : Production} {α σ : List Symbol} {t : Terminal} (at' : a.item s k = .ok ⟨id, α.length⟩)
    (found : g.production? id = some p) (here : g.Dotted a s k p α β) (inner : .terminal .endOfInput ∉ β)
    (known : .item s k (.lookahead t) ∈ F) (path : a.follow 0 σ = .ok s) (bound : n + 1 < trees.tokens.length) :
    ∃ q u, g.production? ((trees.ancestor? n (n + 1)).getD id) = some q ∧
      a.follow 0 (g.stackAfter σ trees n) = .ok u ∧ ∀ l ∈ q.layout, .state u l ∈ F := by
  induction derived generalizing s k n id p α σ t with
  | nil => simp [Trees.tokens] at bound
  | leaf x rest γ behind ih =>
      have first : Symbol.terminal x ≠ .terminal .endOfInput := fun same => inner (same ▸ List.mem_cons_self)
      rw [Trees.tokens, List.length_cons] at bound
      obtain ⟨u, j, path', goes, there, same, kept⟩ := pass_symbol returned closed here first path
      cases n with
      | zero =>
          have more : γ ≠ [] := by
            rintro rfl
            cases behind
            simp [Trees.tokens] at bound
          rw [stackAfter_leaf_zero]
          exact ⟨p, u, found, path', fun l admitted =>
            closed.passed s k (.inr ⟨_, known⟩) _ (.arrive _ u j p _ γ l goes first there more admitted)⟩
      | succ n =>
          rw [stackAfter_leaf_succ]
          exact ih (same id at') found there (fun member => inner (List.mem_cons_of_mem _ member)) (kept _ known) path' (by omega)
  | node id' q children rest γ found' below behind ihBelow ihBehind =>
      rw [Trees.tokens, List.length_append] at bound
      rw [Trees.ancestor?]
      by_cases inside : n + 1 < children.tokens.length
      · obtain ⟨i, entry⟩ := entry_of_dotted returned closed wf here found'
        obtain ⟨v, known'⟩ := entry.known behind known
        rw [if_pos inside, stackAfter_node_of_lt σ id' children rest (by omega)]
        exact ihBelow entry.item found' entry.here entry.inner known' path inside
      · rw [if_neg inside]
        by_cases early : n < children.tokens.length
        · have last : n = children.tokens.length - 1 := by omega
          have some : children.tokens ≠ [] := List.ne_nil_of_length_pos (by omega)
          have more : rest.tokens ≠ [] := List.ne_nil_of_length_pos (by omega)
          obtain ⟨u, path', admitted⟩ :=
            layout_behind_node returned closed wf here (.inr ⟨_, known⟩) found' below path some (behind.begins more)
          rw [if_pos early, stackAfter_node_of_lt σ id' children rest early, last]
          exact ⟨p, u, found, path', admitted⟩
        · obtain ⟨u, j, path', -, there, same, kept⟩ := pass_symbol returned closed here (by simp) path
          have index : n + 1 - children.tokens.length = n - children.tokens.length + 1 := by omega
          rw [if_neg early, index, stackAfter_node_of_le σ rest found' below (by omega)]
          exact ihBehind (same id at') found there (fun member => inner (List.mem_cons_of_mem _ member)) (kept _ known) path'
            (by omega)

theorem layout_between {tree : Trees} (derived : g.Derived tree [.nonterminal .start]) {k : Nat}
    (bound : k + 1 < tree.tokens.length) : ∃ id q u, tree.ancestor? k (k + 1) = some id ∧ g.production? id = some q ∧
      a.follow 0 (g.stackAfter [] tree k) = .ok u ∧ ∀ l ∈ q.layout, .state u l ∈ F := by
  obtain ⟨id, p, children, rfl, found, left, below⟩ := derived.complete wf
  have size : k + 1 < children.tokens.length + 1 := by simpa [Trees.tokens] using bound
  have early : k < children.tokens.length := Nat.lt_of_succ_lt_succ size
  have start : g.Dotted a 0 0 g.accept [] (.nonterminal p.left :: [.terminal .endOfInput]) := left ▸ dotted_start returned
  have active : Active F 0 0 := .inl ⟨rfl, rfl⟩
  have ends : g.Begins [.terminal .endOfInput] .endOfInput := ⟨[], .refl⟩
  have stack : g.stackAfter [] (.node .accept (.node id children (.leaf .endOfInput .nil)) .nil) k =
      g.stackAfter [] children k := by
    rw [stackAfter_node_of_lt, stackAfter_node_of_lt]
    · exact early
    · simpa [Trees.tokens] using Nat.lt_succ_of_lt early
  rw [stack]
  by_cases inside : k + 1 < children.tokens.length
  · obtain ⟨i, entry⟩ := entry_of_dotted returned closed wf start found
    obtain ⟨q, u, found', path, admitted⟩ := layout_within returned closed wf below entry.item found entry.here entry.inner
      (entry.first active _ ends) (rfl : a.follow 0 [] = .ok 0) inside
    exact ⟨_, q, u, by simp [Trees.ancestor?, Trees.tokens, size, inside], found', path, admitted⟩
  · have last : k = children.tokens.length - 1 := by omega
    obtain ⟨u, path, admitted⟩ := layout_behind_node returned closed wf start active found below (rfl : a.follow 0 [] = .ok 0)
      (List.ne_nil_of_length_pos (by omega)) ⟨_, ends⟩
    exact ⟨.accept, g.accept, u, by simp [Trees.ancestor?, Trees.tokens, size, inside, early], rfl, last ▸ path, admitted⟩

end

theorem table_layout_complete (accepted : g.Accepted) (returned : g.automaton = .ok a) :
    ∃ table, a.table g g.context = .ok table ∧
      (∀ tree, g.Derived tree [.nonterminal .start] → ∀ k, k + 1 < tree.tokens.length →
        ∃ id p s set, tree.ancestor? k (k + 1) = some id ∧ g.production? id = some p ∧
          a.follow 0 (g.stackAfter [] tree k) = .ok s ∧ table.layout s = .ok set ∧ p.layout ⊆ set) ∧
      ∃ set, table.layout 0 = .ok set ∧ g.startLayout ⊆ set := by
  have wf := accepted.wellFormed
  have closed : g.Closed a (g.least a) := isLeast_least.1
  obtain ⟨table, ran, -, exact⟩ := table_exact wf returned
  refine ⟨table, ran, fun tree derived k bound => ?_, ?_⟩
  · obtain ⟨id, p, u, meets, found, path, admitted⟩ := layout_between returned closed wf derived bound
    obtain ⟨i, item, at'⟩ := item_of_follow returned path
    obtain ⟨state, here, -⟩ := Automaton.item_eq_ok_iff.mp at'
    obtain ⟨set, answer, members⟩ := exact u state (Automaton.state_eq_ok_iff.mpr here)
    exact ⟨id, p, u, set, meets, found, path, answer, fun l member => (members l).mpr (admitted l member)⟩
  · obtain ⟨state, here, -⟩ := Automaton.item_eq_ok_iff.mp (item_start returned)
    obtain ⟨set, answer, members⟩ := exact 0 state (Automaton.state_eq_ok_iff.mpr here)
    refine ⟨set, answer, fun l member => (members l).mpr ?_⟩
    exact closed.passed 0 0 (.inl ⟨rfl, rfl⟩) _ (.before g.accept _ l (dotted_start returned) (closed.start l member))

theorem Derived.rule {children rest : Trees} {β : List Symbol} (i : Nat) (bound : i < g.rules.size)
    (below : g.Derived children g.rules[i].right.toList) (behind : g.Derived rest β) :
    g.Derived (.node (.rule i) children rest) (.nonterminal g.rules[i].left :: β) :=
  .node (.rule i) g.rules[i] children rest β (Array.getElem?_eq_getElem bound) below behind

def composedStatement : Trees :=
  .node (.rule 2) (.leaf ⟨1⟩ (.leaf ⟨2⟩ (.leaf ⟨3⟩ (.node (.rule 4) (.node (.rule 5) (.leaf ⟨5⟩
    (.node (.rule 7) (.leaf ⟨2⟩ .nil) .nil)) .nil) (.leaf ⟨4⟩ .nil))))) .nil

def composedProgram : Trees :=
  .node .accept (.node (.rule 0) (.node (.rule 1) .nil composedStatement) (.leaf ⟨0⟩ .nil)) .nil

theorem composedProgram_derived : composed.Derived composedProgram [.nonterminal .start] := by
  have columns : composed.Derived (.node (.rule 7) (.leaf ⟨2⟩ .nil) .nil) [Example.n 5] :=
    .rule 7 (by decide) (.leaf ⟨2⟩ .nil [] .nil) .nil
  have query : composed.Derived (.node (.rule 5) (.leaf ⟨5⟩ (.node (.rule 7) (.leaf ⟨2⟩ .nil) .nil)) .nil) [Example.n 4] :=
    .rule 5 (by decide) (.leaf ⟨5⟩ _ _ columns) .nil
  have whole : composed.Derived composedStatement [Example.n 2] :=
    .rule 2 (by decide) (.leaf ⟨1⟩ _ _ (.leaf ⟨2⟩ _ _ (.leaf ⟨3⟩ _ _
      (.rule 4 (by decide) query (.leaf ⟨4⟩ .nil [] .nil))))) .nil
  have list : composed.Derived (.node (.rule 0) (.node (.rule 1) .nil composedStatement) (.leaf ⟨0⟩ .nil))
        composed.accept.right.toList :=
    .rule 0 (by decide) (.rule 1 (by decide) .nil whole) (.leaf ⟨0⟩ .nil [] .nil)
  exact .node .accept composed.accept _ .nil [] rfl list .nil

theorem table_layout_complete_composed : composed.Accepted ∧ composed.Derived composedProgram [.nonterminal .start] ∧
    ∃ a table s set, composed.automaton = .ok a ∧ a.table composed composed.context = .ok table ∧
      a.follow 0 [Example.n 1, Example.t 1, Example.t 2, Example.t 3, Example.t 5] = .ok s ∧
      table.layout s = .ok set ∧ ⟨1⟩ ∈ set := by
  obtain ⟨a, returned⟩ : ∃ a, composed.automaton = .ok a := exists_of_isOk (by decide +kernel)
  obtain ⟨table, ran, between, -⟩ := table_layout_complete composed_accepted returned
  obtain ⟨id, p, s, set, meets, found, path, answer, admitted⟩ := between composedProgram composedProgram_derived 3 (by decide)
  obtain rfl : ProductionId.rule 5 = id := Option.some.inj meets
  cases found
  exact ⟨composed_accepted, composedProgram_derived, a, table, s, set, returned, ran, path, answer, admitted ⟨1⟩ (by decide)⟩

end Grammar

end Lookahead
