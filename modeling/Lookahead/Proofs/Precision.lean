import Lookahead.Proofs.Boundary
import Lookahead.Proofs.Layout

set_option autoImplicit false

namespace Lookahead

-- The places behind `n` tokens where a production admits its layout, in terms of the children of a node.
def Trees.Opens (children : Trees) (n : Nat) : Prop := children.Splits n ∨ children.Ends n

theorem Trees.opens_behind (front back : Trees) (id : ProductionId) (children : Trees) (around : front ≠ .nil ∨ back ≠ .nil) :
    (front.append ((Trees.node id children .nil).append back)).Opens (front.tokens.length + children.tokens.length) := by
  by_cases last : back = .nil
  · subst last
    refine .inr ⟨front, id, children, by simp, around.resolve_right fun more => more rfl, by simp [tokens]⟩
  · refine .inl ⟨front.append (.node id children .nil), back, (append_assoc _ _ _).symm, append_ne_nil _ (by simp), last, ?_⟩
    simp [tokens]

namespace Grammar

variable {g : Grammar} {a : Automaton}

-- The layout stems from a place in some input that the parse gets to in state `s`, right behind a token.
def Admits (g : Grammar) (a : Automaton) (s : Nat) (l : Layout) : Prop :=
  ∃ tree k id p, g.Derived tree [.nonterminal .start] ∧ k + 1 < tree.tokens.length ∧
    a.follow 0 (g.stackAfter [] tree k) = .ok s ∧ g.production? id = some p ∧ l ∈ p.layout ∧
    tree.Has id Trees.Opens (k + 1)

structure Situated (g : Grammar) (a : Automaton) (s k : Nat) (id : ProductionId) (p : Production) (α β : List Symbol)
    (frames : List Frame) (δ : List Symbol) (w z : List Terminal) : Prop where
  item : a.item s k = .ok ⟨id, α.length⟩
  found : g.production? id = some p
  split : p.right.toList = α ++ β
  path : a.follow 0 (δ ++ α) = .ok s
  framed : g.Framed frames δ p.left w z

-- The layout stems from a place at the end of the item's production, whatever that becomes.
def Trails (g : Grammar) (a : Automaton) (s k : Nat) (l : Layout) : Prop :=
  ∃ id p α β frames δ w z, g.Situated a s k id p α β frames δ w z ∧ ∃ id' q, g.production? id' = some q ∧ l ∈ q.layout ∧
    ∀ children, g.Derived children p.right.toList →
      (Trees.enclose frames (.node id children .nil)).Has id' Trees.Opens (w.length + children.tokens.length)

-- What there is to each fact about layout. Within a state, an opening layout is used at left ends only.
def Explains (g : Grammar) (a : Automaton) : Fact → Prop
  | .item _ _ (.lookahead _) => True
  | .item s i (.opening l) => ∀ id u x, a.item s i = .ok ⟨id, 0⟩ → a.transition u (.terminal x) = .ok s → g.Admits a s l
  | .item s i (.closing l) => g.Trails a s i l
  | .state s l => ∀ u x, a.transition u (.terminal x) = .ok s → g.Admits a s l

theorem Valid.last {γ : List Symbol} {item : Item} {x : Symbol} (valid : g.Valid γ item.advance)
    (after : g.symbolAfterDot? item = some x) : ∃ σ, γ = σ ++ [x] := by
  generalize same : item.advance = next at valid
  cases valid with
  | start => cases congrArg Item.position same
  | move γ source y _ after' _ =>
      obtain rfl : item = source := by
        cases item
        cases source
        simpa [Item.advance] using same
      rw [after, Option.some.injEq] at after'
      exact ⟨γ, by rw [after']⟩
  | enter => cases congrArg Item.position same

section

variable (wf : g.WellFormed) (returned : g.automaton = .ok a)
include wf returned

theorem path_of_transition {u s : Nat} {x : Symbol} (step : a.transition u x = .ok s) :
    x ≠ .terminal .endOfInput ∧ ∀ γ, a.follow 0 γ = .ok s → ∃ σ, γ = σ ++ [x] := by
  obtain ⟨edge, taken, rfl⟩ := Automaton.transition_eq_ok_iff.mp step
  obtain ⟨i, j, moved⟩ := exists_move returned taken
  obtain ⟨item, -, move, at'⟩ := move_sound returned taken moved
  obtain ⟨after, inner⟩ := moveSymbol?_eq_some_iff.mp move
  exact ⟨inner, fun γ path => (valid_of_item wf returned path at').last after⟩

end

theorem position_of_goes (returned : g.automaton = .ok a) {s k t j n : Nat} {x : Symbol} {id : ProductionId}
    (step : a.Goes s k x t j) (at' : a.item t j = .ok ⟨id, n⟩) : 0 < n := by
  obtain ⟨edge, taken, rfl, moved⟩ := step
  obtain ⟨item, -, -, there⟩ := move_sound returned taken moved
  rw [at', Except.ok.injEq] at there
  exact Nat.lt_of_lt_of_eq (Nat.succ_pos _) (congrArg Item.position there).symm

namespace Situated

variable {s k : Nat} {id : ProductionId} {p : Production} {α β : List Symbol} {frames : List Frame} {δ : List Symbol}
  {w z : List Terminal}

theorem declared (wf : g.WellFormed) (situated : g.Situated a s k id p α β frames δ w z) {σ : List Symbol} {x : Terminal}
    (last : δ ++ α = σ ++ [.terminal x]) (inner : Symbol.terminal x ≠ .terminal .endOfInput) : p.left ≠ .start := by
  intro outer
  obtain rfl := (wf.left_eq_start_iff situated.found).mp outer
  have found := situated.found
  cases found
  obtain ⟨rfl, -⟩ := Stands.of_start wf situated.framed.stands
  rw [List.nil_append] at last
  have member : .terminal x ∈ g.accept.right := Array.mem_toList_iff.mp (by simp [situated.split, last])
  rcases mem_accept_right.mp member with same | same
  · cases same
  · exact inner same

theorem admits (wf : g.WellFormed) (returned : g.automaton = .ok a) (situated : g.Situated a s k id p α β frames δ w z)
    {front back : Trees} (before : g.Derived front α) (behind : g.Derived back β) {id' : ProductionId} {q : Production}
    {l : Layout} (found : g.production? id' = some q) (admitted : l ∈ q.layout)
    (has : (Trees.enclose frames (.node id (front.append back) .nil)).Has id' Trees.Opens (w.length + front.tokens.length))
    {u : Nat} {x : Terminal} (step : a.transition u (.terminal x) = .ok s) : g.Admits a s l := by
  obtain ⟨inner, ends⟩ := path_of_transition wf returned step
  obtain ⟨σ, last⟩ := ends _ situated.path
  obtain ⟨m, length, stack⟩ := situated.framed.stackAfter_terminal id before last back
  have more : z ≠ [] := situated.framed.ne_nil wf (situated.declared wf last inner)
  have derived : g.Derived (.node id (front.append back) .nil) [.nonterminal p.left] :=
    .node id p _ .nil [] situated.found (situated.split ▸ before.append behind) .nil
  refine ⟨_, m, id', q, situated.framed.derived derived, ?_, stack ▸ situated.path, found, admitted, length ▸ has⟩
  rw [situated.framed.tokens, length]
  have positive := List.length_pos_iff.mpr more
  simp only [Trees.tokens, Trees.tokens_append, List.length_append, List.length_nil]
  omega

theorem move (returned : g.automaton = .ok a) {x : Symbol} {t j : Nat} (situated : g.Situated a s k id p α β frames δ w z)
    (step : a.Goes s k x t j) : ∃ rest, β = x :: rest ∧ g.Situated a t j id p (α ++ [x]) rest frames δ w z := by
  obtain ⟨edge, taken, rfl, moved⟩ := step
  obtain ⟨item, at', move, there⟩ := move_sound returned taken moved
  rw [situated.item, Except.ok.injEq] at at'
  subst at'
  obtain ⟨rest, rfl⟩ := cons_of_symbolAfterDot? situated.found situated.split (moveSymbol?_eq_some_iff.mp move).1
  refine ⟨rest, rfl, by simpa [Item.advance] using there, situated.found, by simp [situated.split], ?_, situated.framed⟩
  rw [← List.append_assoc]
  exact Automaton.follow_append_iff.mpr ⟨s, situated.path,
    Automaton.follow_singleton.trans (Automaton.transition_eq_ok_iff.mpr ⟨edge, taken, rfl⟩)⟩

theorem enter {n : Nonterminal} {i : Nat} (situated : g.Situated a s k id p α (.nonterminal n :: β) frames δ w z)
    (entry : g.Enters a s i n) {front back : Trees} (before : g.Derived front α) (behind : g.Derived back β) :
    ∃ id' q, q.left = n ∧ g.Situated a s i id' q [] q.right.toList (⟨id, front, back⟩ :: frames) (δ ++ α)
      (w ++ front.tokens) (back.tokens ++ z) := by
  obtain ⟨q, ω, ⟨id', atI, found, -⟩, rfl⟩ := entry
  exact ⟨id', q, rfl, atI, found, rfl, by simpa using situated.path,
    .child frames δ α β q.left w z id p front back situated.framed situated.found situated.split before behind⟩

end Situated

section

variable (wf : g.WellFormed) (productive : ∀ n, g.Reachable n → g.Productive n)
include wf productive

theorem trails_of_closing {s k i : Nat} {p : Production} {α β : List Symbol} {n : Nonterminal} {l : Layout}
    (here : g.Dotted a s k p α (.nonterminal n :: β)) (entry : g.Enters a s i n) (gone : g.Vanishes β)
    (known : g.Trails a s k l) : g.Trails a s i l := by
  obtain ⟨id, p', α', β', frames, δ, w, z, situated, id', q, found, admitted, has⟩ := known
  obtain ⟨rfl, rfl, rfl⟩ := here.unique ⟨id, situated.item, situated.found, situated.split⟩
  obtain ⟨⟨front, before⟩, -⟩ :=
    derived_of_production wf productive situated.found (situated.framed.reachable wf) situated.split
  obtain ⟨back, behind, none⟩ := (yields_of_derives (z := []) gone).derived
  obtain ⟨id'', q', rfl, entered⟩ := situated.enter entry before behind
  refine ⟨id'', q', [], _, _, _, _, _, entered, id', q, found, admitted, fun children below => ?_⟩
  have whole : g.Derived (front.append ((Trees.node id'' children .nil).append back)) p.right.toList := by
    rw [situated.split]
    exact before.append (.node id'' q' children back β entered.found below behind)
  have index : (w ++ front.tokens).length + children.tokens.length =
      w.length + (front.append ((Trees.node id'' children .nil).append back)).tokens.length := by
    simp [Trees.tokens, none, Nat.add_assoc]
  rw [index]
  exact has _ whole

variable (returned : g.automaton = .ok a)
include returned

theorem situated_of_dotted {s k : Nat} {p : Production} {α β : List Symbol} (here : g.Dotted a s k p α β) :
    ∃ id frames δ w z, g.Situated a s k id p α β frames δ w z := by
  obtain ⟨id, at', found, split⟩ := here
  obtain ⟨γ, path⟩ := follow_of_item returned at'
  obtain ⟨p', α', β', δ, z, found', split', length, rfl, stands, -⟩ :=
    stands_of_valid wf productive (valid_of_item wf returned path at')
  rw [found, Option.some.injEq] at found'
  subst found'
  obtain ⟨rfl, rfl⟩ := List.append_inj (split'.symm.trans split) length
  obtain ⟨frames, w, framed⟩ := framed_of_stands wf productive stands
  exact ⟨id, frames, δ, w, z, at', found, split, path, framed⟩

theorem admits_between {s k : Nat} {p : Production} {α β : List Symbol} (here : g.Dotted a s k p α β) (inside : α ≠ [])
    (more : β ≠ []) {l : Layout} (admitted : l ∈ p.layout) {u : Nat} {x : Terminal}
    (step : a.transition u (.terminal x) = .ok s) : g.Admits a s l := by
  obtain ⟨id, frames, δ, w, z, situated⟩ := situated_of_dotted wf productive returned here
  obtain ⟨⟨front, before⟩, back, behind⟩ :=
    derived_of_production wf productive situated.found (situated.framed.reachable wf) situated.split
  refine situated.admits wf returned before behind situated.found admitted (situated.framed.has (.inl ⟨rfl, .inl ?_⟩)) step
  exact ⟨front, back, rfl, before.ne_nil inside, behind.ne_nil more, rfl⟩

theorem trails_of_gap {s k i : Nat} {p : Production} {α β : List Symbol} {n : Nonterminal}
    (here : g.Dotted a s k p α (.nonterminal n :: β)) (entry : g.Enters a s i n) (around : α ≠ [] ∨ β ≠ []) {l : Layout}
    (admitted : l ∈ p.layout) : g.Trails a s i l := by
  obtain ⟨id, frames, δ, w, z, situated⟩ := situated_of_dotted wf productive returned here
  have split : p.right.toList = (α ++ [.nonterminal n]) ++ β := by simp [situated.split]
  obtain ⟨⟨_, both⟩, back, behind⟩ :=
    derived_of_production wf productive situated.found (situated.framed.reachable wf) split
  obtain ⟨front, _, -, before, -⟩ := both.split
  obtain ⟨id', q, -, entered⟩ := situated.enter entry before behind
  refine ⟨id', q, [], _, _, _, _, _, entered, id, p, situated.found, admitted, fun children _ => ?_⟩
  rw [List.length_append, Nat.add_assoc]
  refine situated.framed.has (.inl ⟨rfl, Trees.opens_behind front back id' children ?_⟩)
  exact around.imp before.ne_nil behind.ne_nil

theorem admits_of_trails {s k : Nat} {p : Production} {α β : List Symbol} {l : Layout} (here : g.Dotted a s k p α β)
    (gone : g.Vanishes β) (known : g.Trails a s k l) {u : Nat} {x : Terminal} (step : a.transition u (.terminal x) = .ok s) :
    g.Admits a s l := by
  obtain ⟨id, p', α', β', frames, δ, w, z, situated, id', q, found, admitted, has⟩ := known
  obtain ⟨rfl, rfl, rfl⟩ := here.unique ⟨id, situated.item, situated.found, situated.split⟩
  obtain ⟨⟨front, before⟩, -⟩ :=
    derived_of_production wf productive situated.found (situated.framed.reachable wf) situated.split
  obtain ⟨back, behind, none⟩ := (yields_of_derives (z := []) gone).derived
  have all := has (front.append back) (situated.split ▸ before.append behind)
  rw [Trees.tokens_append, none, List.append_nil] at all
  exact situated.admits wf returned before behind found admitted all step

theorem closed_explains : g.Closed a {fact | g.Explains a fact} := by
  refine ⟨fun l _ id u x _ step => ?_, fun s k _ fact passes => ?_⟩
  · obtain ⟨σ, nothing⟩ := (path_of_transition wf returned step).2 [] rfl
    simp at nothing
  · cases passes with
    | first i p α β n t here entry begins => exact trivial
    | lookahead i p α β n t here entry gone known => exact trivial
    | opening i p β n l here entry known =>
        obtain ⟨id, at', -⟩ := here
        exact fun _ u x _ step => known id u x at' step
    | between i p α β n l here entry inside admitted =>
        exact fun _ u x _ step => admits_between wf productive returned here inside (List.cons_ne_nil _ _) admitted step
    | gap i p α β n l here entry around admitted =>
        refine trails_of_gap wf productive returned here entry (around.imp_right fun ⟨t, begins⟩ => ?_) admitted
        rintro rfl
        exact not_begins_nil t begins
    | closing i p α β n l here entry gone known => exact trails_of_closing wf productive here entry gone known
    | move x t j y step inner known =>
        cases y with
        | lookahead t => exact trivial
        | opening l =>
            exact fun id u x at' _ => absurd (position_of_goes returned step at') (Nat.lt_irrefl 0)
        | closing l =>
            obtain ⟨id, p, α, β, frames, δ, w, z, situated, rest⟩ := known
            obtain ⟨_, rfl, moved⟩ := situated.move returned step
            exact ⟨id, p, _, _, frames, δ, w, z, moved, rest⟩
    | arrive x t j p α β l step inner there more admitted =>
        refine fun u y step' => admits_between wf productive returned there ?_ more admitted step'
        obtain ⟨id, at', -⟩ := there
        exact List.ne_nil_of_length_pos (position_of_goes returned step at')
    | before p β l here known =>
        obtain ⟨id, at', -⟩ := here
        exact fun u x step => known id u x at' step
    | behind p α β l here gone known => exact fun u x step => admits_of_trails wf productive returned here gone known step

end

theorem table_layout_precise (accepted : g.Accepted) (returned : g.automaton = .ok a)
    (productive : ∀ n, g.Reachable n → g.Productive n) : ∃ table, a.table g g.context = .ok table ∧
      ∀ u t s set l, a.transition u (.terminal t) = .ok s → table.layout s = .ok set → l ∈ set →
        ∃ tree k id p, g.Derived tree [.nonterminal .start] ∧ k + 1 < tree.tokens.length ∧
          a.follow 0 (g.stackAfter [] tree k) = .ok s ∧ g.production? id = some p ∧ l ∈ p.layout ∧
          tree.Has id (fun children n => children.Splits n ∨ children.Ends n) (k + 1) := by
  have wf := accepted.wellFormed
  obtain ⟨table, ran, -, exact⟩ := table_exact wf returned
  refine ⟨table, ran, fun u t s set l step answer member => ?_⟩
  obtain ⟨edge, taken, rfl⟩ := Automaton.transition_eq_ok_iff.mp step
  obtain ⟨i, j, moved⟩ := exists_move returned taken
  obtain ⟨item, -, -, at'⟩ := move_sound returned taken moved
  obtain ⟨state, found, -⟩ := Automaton.item_eq_ok_iff.mp at'
  obtain ⟨set', answer', members⟩ := exact edge.target state (Automaton.state_eq_ok_iff.mpr found)
  rw [answer, Except.ok.injEq] at answer'
  subst answer'
  exact isLeast_least.2 (closed_explains wf productive returned) ((members l).mp member) u t step

end Grammar

def trailing : Grammar where
  terminals := #["#EOI", "a", "c"]
  layouts := #["WS"]
  nonterminals := #["#Start", "S", "C"]
  rules := #[
    ⟨⟨1⟩, #[Example.t 1, Example.n 2], {⟨0⟩}⟩,
    ⟨⟨2⟩, #[Example.t 2], ∅⟩]
  startSymbol := ⟨1⟩
  startLayout := ∅

def trailingSteps : List Step :=
  [.layout "WS", .terminal "a", .terminal "c", .nonterminal "S", .nonterminal "C",
    .production [⟨0⟩] ⟨1⟩ #[Example.t 1, Example.n 2], .production [] ⟨2⟩ #[Example.t 2]]

def trailingTree : Trees :=
  .node .accept (.node (.rule 0) (.leaf ⟨1⟩ (.node (.rule 1) (.leaf ⟨2⟩ .nil) .nil)) (.leaf ⟨0⟩ .nil)) .nil

theorem trailing_accepted : trailing.Accepted := Grammar.accepted_of_define trailingSteps (by decide +kernel)

namespace Grammar

theorem trailing_production {id : ProductionId} {p : Production} (found : trailing.production? id = some p)
    (declared : p.left ≠ .start) : (id = .rule 0 ∧ p = trailing.rules[0]) ∨ (id = .rule 1 ∧ p = trailing.rules[1]) := by
  cases id with
  | accept =>
      cases found
      exact absurd rfl declared
  | rule i =>
      obtain ⟨bound, rfl⟩ := Array.getElem?_eq_some_iff.mp found
      change i < 2 at bound
      interval_cases i
      · exact .inl ⟨rfl, rfl⟩
      · exact .inr ⟨rfl, rfl⟩

theorem trailing_unique {tree : Trees} (derived : trailing.Derived tree [.nonterminal .start]) : tree = trailingTree := by
  obtain ⟨id, p, children, rfl, found, left, below⟩ := derived.complete trailing_accepted.wellFormed
  rcases trailing_production found (by rw [left]; decide) with ⟨rfl, rfl⟩ | ⟨rfl, rfl⟩
  · obtain ⟨_, rfl, behind⟩ := Derived.cons_terminal (t := ⟨1⟩) (β := [Example.n 2]) below
    obtain ⟨id', q, inner, _, rfl, found', left', below', ended⟩ := Derived.cons_nonterminal (n := ⟨2⟩) (β := []) behind
    obtain rfl := ended.eq_nil
    rcases trailing_production found' (by rw [left']; decide) with ⟨rfl, rfl⟩ | ⟨rfl, rfl⟩
    · cases left'
    · obtain ⟨_, rfl, ended'⟩ := Derived.cons_terminal (t := ⟨2⟩) (β := []) below'
      obtain rfl := ended'.eq_nil
      rfl
  · cases left

theorem trailing_productive (n : Nonterminal) (known : n.index < trailing.nonterminals.size) : trailing.Productive n := by
  have word : trailing.Productive ⟨2⟩ := productive_of_rule 1 (by decide) (by simp [trailing, Example.t])
  have whole : trailing.Productive ⟨1⟩ := productive_of_rule 0 (by decide) (by simpa [trailing, Example.t, Example.n] using word)
  obtain ⟨i⟩ := n
  change i < 3 at known
  interval_cases i
  · exact productive_of_production .accept trailing.accept rfl (by simpa [mem_accept_right, trailing] using whole)
  · exact whole
  · exact word

theorem trailing_splits {n : Nat} (has : trailingTree.Has (.rule 0) Trees.Splits n) : n = 1 := by
  have only : (Trees.leaf ⟨1⟩ (.node (.rule 1) (.leaf ⟨2⟩ .nil) .nil)).Splits n := by
    simpa [trailingTree, Trees.Has] using has
  obtain ⟨front, back, same, some, more, rfl⟩ := only
  cases front with
  | nil => exact absurd rfl some
  | node id children rest => cases same
  | leaf t rest =>
      simp only [Trees.append, Trees.leaf.injEq] at same
      cases rest with
      | nil => rfl
      | leaf u rest => cases same.2
      | node id children rest => exact absurd (Trees.node.inj same.2).2.2.symm (Trees.append_ne_nil rest more)

-- Blanks are skipped behind the last word, though no production that has them has anything behind it there.
theorem table_layout_trails : trailing.Accepted ∧
    (∀ n : Nonterminal, n.index < trailing.nonterminals.size → trailing.Productive n) ∧
    ∃ a table, trailing.automaton = .ok a ∧ a.table trailing trailing.context = .ok table ∧
      a.transition 2 (Example.t 2) = .ok 4 ∧ table.layout 4 = .ok {⟨0⟩} ∧
      ¬ ∃ tree k id p, trailing.Derived tree [.nonterminal .start] ∧ k + 1 < tree.tokens.length ∧
        a.follow 0 (trailing.stackAfter [] tree k) = .ok 4 ∧ trailing.production? id = some p ∧ ⟨0⟩ ∈ p.layout ∧
        tree.Has id Trees.Splits (k + 1) := by
  have shown : (do
      let a ← trailing.automaton
      return (← a.follow 0 [Example.t 1], ← a.transition 2 (Example.t 2),
        ← (← a.table trailing trailing.context).layout 4)) = Except.ok (2, 4, {⟨0⟩}) := by
    decide +kernel
  simp only [bind_eq_ok_iff, pure, Except.pure, Except.ok.injEq, Prod.mk.injEq] at shown
  obtain ⟨a, returned, s, early, t, step, table, ran, set, answer, rfl, rfl, rfl⟩ := shown
  refine ⟨trailing_accepted, trailing_productive, a, table, returned, ran, step, answer, ?_⟩
  rintro ⟨tree, k, id, p, derived, bound, path, found, admitted, has⟩
  obtain rfl := trailing_unique derived
  -- The blanks are those of the first rule, and those are between the two tokens.
  have first : id = .rule 0 := by
    by_cases declared : p.left = .start
    · obtain rfl := (trailing_accepted.wellFormed.left_eq_start_iff found).mp declared
      cases found
      exact absurd admitted (by decide)
    · rcases trailing_production found declared with ⟨rfl, rfl⟩ | ⟨rfl, rfl⟩
      · rfl
      · exact absurd admitted (by decide)
  subst first
  have between := trailing_splits has
  obtain rfl : k = 0 := by omega
  rw [show trailing.stackAfter [] trailingTree 0 = [Example.t 1] from rfl, early] at path
  cases path

theorem table_layout_precise_composed : composed.Accepted ∧ (∀ n, composed.Reachable n → composed.Productive n) ∧
    ∃ a table u s, composed.automaton = .ok a ∧ a.table composed composed.context = .ok table ∧
      a.transition u (Example.t 5) = .ok s ∧ table.layout s = .ok {⟨1⟩} ∧
      ∃ tree k id p, composed.Derived tree [.nonterminal .start] ∧ k + 1 < tree.tokens.length ∧
        a.follow 0 (composed.stackAfter [] tree k) = .ok s ∧ composed.production? id = some p ∧ ⟨1⟩ ∈ p.layout ∧
        tree.Has id (fun children n => children.Splits n ∨ children.Ends n) (k + 1) := by
  have shown : (do
      let a ← composed.automaton
      let u ← a.follow 0 [Example.n 1, Example.t 1, Example.t 2, Example.t 3]
      let s ← a.transition u (Example.t 5)
      (← a.table composed composed.context).layout s) = Except.ok {⟨1⟩} := by
    decide +kernel
  simp only [bind_eq_ok_iff] at shown
  obtain ⟨a, returned, u, -, s, step, table, ran, answer⟩ := shown
  obtain ⟨table', ran', precise⟩ := table_layout_precise composed_accepted returned composed_productive
  rw [ran, Except.ok.injEq] at ran'
  subst ran'
  exact ⟨composed_accepted, composed_productive, a, table, u, s, returned, ran, step, answer,
    precise u ⟨5⟩ s {⟨1⟩} ⟨1⟩ step answer (by decide)⟩

end Grammar

end Lookahead
