import Lookahead.Proofs.Exact
import Lookahead.Proofs.Tree

set_option autoImplicit false

namespace Lookahead

namespace Trees

def append : Trees → Trees → Trees
  | .nil, back => back
  | .leaf t rest, back => .leaf t (rest.append back)
  | .node id children rest, back => .node id children (rest.append back)

-- There is a boundary between two of the trees, with `n` tokens in front of it.
def Splits (trees : Trees) (n : Nat) : Prop :=
  ∃ front back : Trees, trees = front.append back ∧ front ≠ .nil ∧ back ≠ .nil ∧ n = front.tokens.length

-- There are several trees, of `n` tokens, and the last of them is a node.
def Ends (trees : Trees) (n : Nat) : Prop :=
  ∃ (front : Trees) (id : ProductionId) (children : Trees),
    trees = front.append (.node id children .nil) ∧ front ≠ .nil ∧ n = trees.tokens.length

-- A node of the production has children with a certain place in them, `n` tokens into the trees.
def Has (id : ProductionId) (place : Trees → Nat → Prop) : Trees → (n : Nat) → Prop
  | .nil, _ => False
  | .leaf _ rest, n => 0 < n ∧ rest.Has id place (n - 1)
  | .node id' children rest, n => (id' = id ∧ place children n) ∨ children.Has id place n ∨
      children.tokens.length ≤ n ∧ rest.Has id place (n - children.tokens.length)

@[simp] theorem append_nil (trees : Trees) : trees.append .nil = trees := by
  induction trees with
  | nil => rfl
  | leaf t rest ih => rw [append, ih]
  | node id children rest _ ih => rw [append, ih]

theorem append_assoc (front middle back : Trees) : (front.append middle).append back = front.append (middle.append back) := by
  induction front with
  | nil => rfl
  | leaf t rest ih => simp only [append, ih]
  | node id children rest _ ih => simp only [append, ih]

@[simp] theorem tokens_append (front back : Trees) : (front.append back).tokens = front.tokens ++ back.tokens := by
  induction front with
  | nil => rfl
  | leaf t rest ih => simp only [append, tokens, ih, List.cons_append]
  | node id children rest _ ih => simp only [append, tokens, ih, List.append_assoc]

theorem append_ne_nil (front : Trees) {back : Trees} (more : back ≠ .nil) : front.append back ≠ .nil := by
  cases front with
  | nil => exact more
  | leaf t rest => simp [append]
  | node id children rest => simp [append]

theorem parse_append (front back : Trees) : (front.append back).parse = front.parse ++ back.parse := by
  induction front with
  | nil => rfl
  | leaf t rest ih => simp only [append, parse, ih, List.cons_append]
  | node id children rest _ ih => simp only [append, parse, ih, List.append_assoc, List.cons_append]

section

variable {id : ProductionId} {place : Trees → Nat → Prop}

theorem Has.append_front {front : Trees} {n : Nat} (has : front.Has id place n) (back : Trees) :
    (front.append back).Has id place n := by
  induction front generalizing n with
  | nil => exact has.elim
  | leaf t rest ih => exact has.imp_right fun behind => ih behind
  | node id' children rest _ ih =>
    exact has.imp_right fun below => below.imp_right fun behind => behind.imp_right fun has => ih has

theorem Has.append_back {back : Trees} {n : Nat} (has : back.Has id place n) (front : Trees) :
    (front.append back).Has id place (front.tokens.length + n) := by
  induction front with
  | nil => simpa [append, tokens] using has
  | leaf t rest ih =>
      have index : rest.tokens.length + 1 + n - 1 = rest.tokens.length + n := by omega
      simp only [append, tokens, List.length_cons, Has, index]
      exact ⟨by omega, ih⟩
  | node id' children rest _ ih =>
      have index : children.tokens.length + rest.tokens.length + n - children.tokens.length = rest.tokens.length + n := by omega
      simp only [append, tokens, List.length_append, Has, index]
      exact .inr (.inr ⟨by omega, ih⟩)

end

end Trees

-- A node that is being put together: the children in front of one, and those behind it.
structure Frame where
  id : ProductionId
  front : Trees
  back : Trees

def Frame.fill (frame : Frame) (trees : Trees) : Trees :=
  .node frame.id (frame.front.append (trees.append frame.back)) .nil

-- The frames lie from the inside to the outside.
def Trees.enclose : List Frame → Trees → Trees
  | [], trees => trees
  | frame :: frames, trees => enclose frames (frame.fill trees)

namespace Grammar

-- The frames are those of a parse with `δ` on its stack in front of the nonterminal `n`, where `w` has been
-- read and `z` is to follow.
inductive Framed (g : Grammar) : List Frame → List Symbol → Nonterminal → List Terminal → List Terminal → Prop where
  | root : Framed g [] [] .start [] []
  | child (frames : List Frame) (δ α β : List Symbol) (n : Nonterminal) (w z : List Terminal) (id : ProductionId)
      (p : Production) (front back : Trees) (parent : Framed g frames δ p.left w z) (found : g.production? id = some p)
      (split : p.right.toList = α ++ .nonterminal n :: β) (before : g.Derived front α) (behind : g.Derived back β) :
      Framed g (⟨id, front, back⟩ :: frames) (δ ++ α) n (w ++ front.tokens) (back.tokens ++ z)

variable {g : Grammar}

theorem Derived.append {front back : Trees} {α β : List Symbol} (before : g.Derived front α) (behind : g.Derived back β) :
    g.Derived (front.append back) (α ++ β) := by
  induction before with
  | nil => exact behind
  | leaf t rest α _ ih => exact .leaf t _ _ ih
  | node id p children rest α found below _ _ ih => exact .node id p children _ _ found below ih

theorem Derived.split {trees : Trees} {α β : List Symbol} (derived : g.Derived trees (α ++ β)) :
    ∃ front back : Trees, trees = front.append back ∧ g.Derived front α ∧ g.Derived back β := by
  induction α generalizing trees with
  | nil => exact ⟨.nil, trees, rfl, .nil, derived⟩
  | cons x α ih =>
      cases derived with
      | leaf t rest _ behind =>
          obtain ⟨front, back, rfl, before, after⟩ := ih behind
          exact ⟨.leaf t front, back, rfl, .leaf t front α before, after⟩
      | node id p children rest _ found below behind =>
          obtain ⟨front, back, rfl, before, after⟩ := ih behind
          exact ⟨.node id children front, back, rfl, .node id p children front α found below before, after⟩

theorem Derived.concat_terminal {trees : Trees} {α : List Symbol} {x : Terminal}
    (derived : g.Derived trees (α ++ [.terminal x])) : ∃ front, trees = front.append (.leaf x .nil) ∧ g.Derived front α := by
  obtain ⟨front, token, rfl, before, single⟩ := derived.split
  obtain ⟨rest, rfl, behind⟩ := single.cons_terminal
  obtain rfl := behind.eq_nil
  exact ⟨front, rfl, before⟩

theorem Derived.ne_nil {trees : Trees} {β : List Symbol} (derived : g.Derived trees β) (more : β ≠ []) : trees ≠ .nil := by
  rintro rfl
  cases derived
  exact more rfl

theorem Yields.derived {β : List Symbol} {w : List Terminal} (yields : g.Yields β w) :
    ∃ trees, g.Derived trees β ∧ trees.tokens = w := by
  induction yields with
  | nil => exact ⟨.nil, .nil, rfl⟩
  | terminal t β w _ ih =>
      obtain ⟨rest, derived, rfl⟩ := ih
      exact ⟨.leaf t rest, .leaf t rest β derived, rfl⟩
  | nonterminal id p β v w found _ _ inner rest =>
      obtain ⟨children, below, rfl⟩ := inner
      obtain ⟨rest, behind, rfl⟩ := rest
      exact ⟨.node id children rest, .node id p children rest β found below behind, rfl⟩

theorem stackAfter_append_back {front : Trees} {α : List Symbol} (before : g.Derived front α) (stack : List Symbol)
    (back : Trees) (k : Nat) : g.stackAfter stack (front.append back) (front.tokens.length + k) =
      g.stackAfter (stack ++ α) back k := by
  have parsed := before.performAll_parse stack
  unfold performAll at parsed
  rw [stackAfter, Trees.parse_append, upTo_parse_append, if_neg (Nat.not_lt.mpr (Nat.le_add_right _ _)), Nat.add_sub_cancel_left,
    performAll, List.foldl_append, parsed]
  rfl

theorem stackAfter_append_front (stack : List Symbol) (front back : Trees) {k : Nat} (inside : k < front.tokens.length) :
    g.stackAfter stack (front.append back) k = g.stackAfter stack front k := by
  rw [stackAfter, Trees.parse_append, upTo_parse_append, if_pos inside]
  rfl

namespace Framed

variable {frames : List Frame} {δ : List Symbol} {n : Nonterminal} {w z : List Terminal} (framed : g.Framed frames δ n w z)
include framed

theorem derived {trees : Trees} (derived : g.Derived trees [.nonterminal n]) :
    g.Derived (.enclose frames trees) [.nonterminal .start] := by
  induction framed generalizing trees with
  | root => exact derived
  | child frames δ α β n w z id p front back _ found split before behind ih =>
      have whole : g.Derived (front.append (trees.append back)) p.right.toList := by
        rw [split]
        exact before.append (derived.append behind)
      exact ih (.node id p _ .nil [] found whole .nil)

theorem tokens (trees : Trees) : (Trees.enclose frames trees).tokens = w ++ (trees.tokens ++ z) := by
  induction framed generalizing trees with
  | root => simp [Trees.enclose]
  | child frames δ α β n w z id p front back _ found split before behind ih =>
      rw [Trees.enclose, ih, Frame.fill]
      simp [Trees.tokens]

theorem stackAfter {trees : Trees} {k : Nat} (inside : k < trees.tokens.length) :
    g.stackAfter [] (.enclose frames trees) (w.length + k) = g.stackAfter δ trees k := by
  induction framed generalizing trees k with
  | root => simp [Trees.enclose]
  | child frames δ α β n w z id p front back _ found split before behind ih =>
      have within : front.tokens.length + k < (front.append (trees.append back)).tokens.length := by
        simp only [Trees.tokens_append, List.length_append]
        omega
      rw [Trees.enclose, List.length_append, Nat.add_assoc, ih, Frame.fill, stackAfter_node_of_lt _ _ _ _ within,
        stackAfter_append_back before, stackAfter_append_front _ _ _ inside]
      simpa [Frame.fill, Trees.tokens] using within

theorem has {id : ProductionId} {place : Trees → Nat → Prop} {trees : Trees} {m : Nat} (has : trees.Has id place m) :
    (Trees.enclose frames trees).Has id place (w.length + m) := by
  induction framed generalizing trees m with
  | root => simpa [Trees.enclose] using has
  | child frames δ α β n w z id' p front back _ found split before behind ih =>
      rw [Trees.enclose, List.length_append, Nat.add_assoc]
      exact ih (.inr (.inl ((has.append_front back).append_back front)))

theorem stackAfter_token {id : ProductionId} {front : Trees} {α : List Symbol} {x : Terminal}
    (before : g.Derived front (α ++ [.terminal x])) (back : Trees) : ∃ k, k + 1 = w.length + front.tokens.length ∧
      g.stackAfter [] (.enclose frames (.node id (front.append back) .nil)) k = δ ++ (α ++ [.terminal x]) := by
  obtain ⟨first, rfl, earlier⟩ := before.concat_terminal
  have within : first.tokens.length < (first.append (.leaf x back)).tokens.length := by simp [Trees.tokens]
  have here := stackAfter_append_back earlier δ (.leaf x back) 0
  rw [stackAfter_leaf_zero, List.append_assoc] at here
  refine ⟨w.length + first.tokens.length, by simp [Trees.tokens, Nat.add_assoc], ?_⟩
  rw [Trees.append_assoc, framed.stackAfter (by simp [Trees.append, Trees.tokens])]
  exact (stackAfter_node_of_lt _ _ _ _ within).trans here

theorem stackAfter_last {σ : List Symbol} {x : Terminal} (last : δ = σ ++ [.terminal x]) (trees : Trees) :
    ∃ k, k + 1 = w.length ∧ g.stackAfter [] (.enclose frames trees) k = δ := by
  induction framed generalizing σ trees with
  | root => simp at last
  | child frames δ α β n w z id p front back parent found split before behind ih =>
      cases α using List.reverseRecOn with
      | nil =>
          obtain rfl := before.eq_nil
          rw [List.append_nil] at last
          obtain ⟨k, length, stack⟩ := ih last (Frame.fill ⟨id, .nil, back⟩ trees)
          exact ⟨k, by simpa [Trees.tokens] using length, by simpa [Trees.enclose] using stack⟩
      | append_singleton α y =>
          rw [← List.append_assoc] at last
          obtain ⟨-, same⟩ := List.append_inj' last rfl
          obtain rfl := (List.cons.inj same).1
          obtain ⟨k, length, stack⟩ := parent.stackAfter_token before (trees.append back)
          exact ⟨k, by rw [length, List.length_append], stack⟩

theorem stackAfter_terminal (id : ProductionId) {front : Trees} {α σ : List Symbol} {x : Terminal}
    (before : g.Derived front α) (last : δ ++ α = σ ++ [.terminal x]) (back : Trees) :
    ∃ k, k + 1 = w.length + front.tokens.length ∧
      g.stackAfter [] (.enclose frames (.node id (front.append back) .nil)) k = δ ++ α := by
  cases α using List.reverseRecOn with
  | nil =>
      obtain rfl := before.eq_nil
      rw [List.append_nil] at last ⊢
      exact framed.stackAfter_last last _
  | append_singleton α y =>
      rw [← List.append_assoc] at last
      obtain ⟨-, same⟩ := List.append_inj' last rfl
      obtain rfl := (List.cons.inj same).1
      exact framed.stackAfter_token before back

theorem stands : g.Stands δ n z := by
  induction framed with
  | root => exact .start
  | child frames δ α β n w z id p front back _ found split _ behind ih =>
      exact .child δ α β n back.tokens z id p ih found split behind.yields

theorem reachable (wf : g.WellFormed) : g.InUse n := by
  induction framed with
  | root => exact .inl rfl
  | child frames δ α β n w z id p front back _ found split _ _ ih => exact .inr (reachable_of_split wf found ih split)

theorem ne_nil (wf : g.WellFormed) (declared : n ≠ .start) : z ≠ [] := by
  induction framed with
  | root => exact absurd rfl declared
  | child frames δ α β n w z id p front back _ found split _ behind ih =>
      by_cases outer : p.left = .start
      · obtain rfl := (wf.left_eq_start_iff found).mp outer
        cases found
        obtain ⟨-, -, rfl⟩ := accept_split split
        cases behind
        simp [Trees.tokens]
      · simp [ih outer]

end Framed

section

variable (wf : g.WellFormed) (productive : ∀ n, g.Reachable n → g.Productive n)
include wf productive

theorem derived_of_production {id : ProductionId} {p : Production} (found : g.production? id = some p)
    (outer : g.InUse p.left) {α β : List Symbol} (split : p.right.toList = α ++ β) :
    (∃ front, g.Derived front α) ∧ ∃ back, g.Derived back β := by
  obtain ⟨w, yields⟩ := yields_behind wf productive found outer (α := []) (β := α ++ β) split .refl
  obtain ⟨trees, derived, -⟩ := yields.derived
  obtain ⟨front, back, -, before, behind⟩ := derived.split
  exact ⟨⟨front, before⟩, back, behind⟩

theorem framed_of_stands {δ : List Symbol} {n : Nonterminal} {z : List Terminal} (stands : g.Stands δ n z) :
    ∃ frames w, g.Framed frames δ n w z := by
  induction stands with
  | start => exact ⟨[], [], .root⟩
  | child δ α β n w z id p _ found split tail ih =>
      obtain ⟨frames, v, parent⟩ := ih
      obtain ⟨⟨front, before⟩, -⟩ := derived_of_production wf productive found (parent.reachable wf) split
      obtain ⟨back, behind, rfl⟩ := tail.derived
      exact ⟨_, _, .child frames δ α β n v z id p front back parent found split before behind⟩

end

end Grammar

end Lookahead
