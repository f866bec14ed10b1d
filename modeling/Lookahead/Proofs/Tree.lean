import Lookahead.Proofs.Derivation

set_option autoImplicit false

namespace Lookahead

-- Trees one beside another. A node is followed by its children and by the trees behind it.
inductive Trees where
  | nil
  | leaf (t : Terminal) (rest : Trees)
  | node (id : ProductionId) (children rest : Trees)

inductive Action where
  | shift (t : Terminal)
  | reduce (id : ProductionId)

namespace Trees

def tokens : Trees → List Terminal
  | .nil => []
  | .leaf t rest => t :: rest.tokens
  | .node _ children rest => children.tokens ++ rest.tokens

def parse : Trees → List Action
  | .nil => []
  | .leaf t rest => .shift t :: rest.parse
  | .node id children rest => children.parse ++ .reduce id :: rest.parse

-- The production of the lowest node that has both token `i` and token `j` below it, for `i < j`.
def ancestor? : Trees → (i j : Nat) → Option ProductionId
  | .nil, _, _ => none
  | .leaf _ _, 0, _ => none
  | .leaf _ rest, i + 1, j => rest.ancestor? i (j - 1)
  | .node id children rest, i, j =>
      let size := children.tokens.length
      if j < size then some ((children.ancestor? i j).getD id)
      else if i < size then none
      else rest.ancestor? (i - size) (j - size)

end Trees

-- The actions up to and including the shift of token `k`.
def Action.upTo : (k : Nat) → List Action → List Action
  | _, [] => []
  | k, .reduce id :: rest => .reduce id :: upTo k rest
  | 0, .shift t :: _ => [.shift t]
  | k + 1, .shift t :: rest => .shift t :: upTo k rest

namespace Grammar

def perform (g : Grammar) (stack : List Symbol) : Action → List Symbol
  | .shift t => stack ++ [.terminal t]
  | .reduce id =>
      match g.production? id with
      | some p => stack.take (stack.length - p.right.size) ++ [.nonterminal p.left]
      | none => stack

def performAll (g : Grammar) (stack : List Symbol) (actions : List Action) : List Symbol := actions.foldl g.perform stack

-- The stack right after token `k` has been shifted.
def stackAfter (g : Grammar) (stack : List Symbol) (trees : Trees) (k : Nat) : List Symbol :=
  g.performAll stack (Action.upTo k trees.parse)

inductive Derived (g : Grammar) : Trees → List Symbol → Prop where
  | nil : Derived g .nil []
  | leaf (t : Terminal) (rest : Trees) (β : List Symbol) (behind : Derived g rest β) :
      Derived g (.leaf t rest) (.terminal t :: β)
  | node (id : ProductionId) (p : Production) (children rest : Trees) (β : List Symbol)
      (found : g.production? id = some p) (below : Derived g children p.right.toList) (behind : Derived g rest β) :
      Derived g (.node id children rest) (.nonterminal p.left :: β)

variable {g : Grammar}

theorem Derived.eq_nil {trees : Trees} (derived : g.Derived trees []) : trees = .nil := by
  cases derived
  rfl

theorem Derived.cons_terminal {trees : Trees} {t : Terminal} {β : List Symbol} (derived : g.Derived trees (.terminal t :: β)) :
    ∃ rest, trees = .leaf t rest ∧ g.Derived rest β := by
  cases derived with
  | leaf _ rest _ behind => exact ⟨rest, rfl, behind⟩

theorem Derived.cons_nonterminal {trees : Trees} {n : Nonterminal} {β : List Symbol}
    (derived : g.Derived trees (.nonterminal n :: β)) : ∃ id p children rest, trees = .node id children rest ∧
      g.production? id = some p ∧ p.left = n ∧ g.Derived children p.right.toList ∧ g.Derived rest β := by
  cases derived with
  | node id p children rest _ found below behind => exact ⟨id, p, children, rest, rfl, found, rfl, below, behind⟩

theorem Derived.yields {trees : Trees} {β : List Symbol} (derived : g.Derived trees β) : g.Yields β trees.tokens := by
  induction derived with
  | nil => exact .nil
  | leaf t rest β _ ih => exact .terminal t β _ ih
  | node id p children rest β found _ _ below behind => exact .nonterminal id p β _ _ found below behind

theorem Derived.vanishes {trees : Trees} {β : List Symbol} (derived : g.Derived trees β) (none : trees.tokens = []) :
    g.Vanishes β := by
  have path := derived.yields.derives
  rw [none] at path
  exact path

theorem Derived.begins {trees : Trees} {β : List Symbol} (derived : g.Derived trees β) (some : trees.tokens ≠ []) :
    ∃ t, g.Begins β t := by
  have yields := derived.yields
  cases tokens : trees.tokens with
  | nil => exact absurd tokens some
  | cons t w =>
      rw [tokens] at yields
      exact ⟨t, yields.begins⟩

theorem perform_reduce {id : ProductionId} {p : Production} (found : g.production? id = some p) (stack : List Symbol) :
    g.perform (stack ++ p.right.toList) (.reduce id) = stack ++ [.nonterminal p.left] := by
  rw [perform, found]
  simp

theorem Derived.performAll_parse {trees : Trees} {β : List Symbol} (derived : g.Derived trees β) (stack : List Symbol) :
    g.performAll stack trees.parse = stack ++ β := by
  unfold performAll
  induction derived generalizing stack with
  | nil => simp [Trees.parse]
  | leaf t rest β _ ih =>
      rw [Trees.parse, List.foldl_cons, ih]
      simp [perform]
  | node id p children rest β found _ _ below behind =>
      rw [Trees.parse, List.foldl_append, List.foldl_cons, below, perform_reduce found, behind]
      simp

theorem upTo_parse_append (trees : Trees) (actions : List Action) (k : Nat) :
    Action.upTo k (trees.parse ++ actions) =
      if k < trees.tokens.length then Action.upTo k trees.parse
      else trees.parse ++ Action.upTo (k - trees.tokens.length) actions := by
  induction trees generalizing k actions with
  | nil => simp [Trees.parse, Trees.tokens]
  | leaf t rest ih =>
      cases k with
      | zero => simp [Trees.parse, Trees.tokens, Action.upTo]
      | succ k =>
          simp only [Trees.parse, Trees.tokens, List.cons_append, Action.upTo, ih, List.length_cons,
            Nat.add_lt_add_iff_right, Nat.add_sub_add_right]
          split <;> rfl
  | node id children rest below behind =>
      have whole : (children.parse ++ .reduce id :: rest.parse) ++ actions =
          children.parse ++ (.reduce id :: (rest.parse ++ actions)) := by simp
      simp only [Trees.parse, Trees.tokens, List.length_append]
      rw [whole, below, below, Action.upTo, Action.upTo, behind]
      by_cases early : k < children.tokens.length
      · have inside : k < children.tokens.length + rest.tokens.length := by omega
        rw [if_pos early, if_pos early, if_pos inside]
      · rw [if_neg early, if_neg early, Nat.sub_sub]
        by_cases late : k - children.tokens.length < rest.tokens.length
        · have inside : k < children.tokens.length + rest.tokens.length := by omega
          rw [if_pos late, if_pos inside]
        · have outside : ¬ k < children.tokens.length + rest.tokens.length := by omega
          rw [if_neg late, if_neg outside]
          simp

theorem stackAfter_leaf_zero (stack : List Symbol) (t : Terminal) (rest : Trees) :
    g.stackAfter stack (.leaf t rest) 0 = stack ++ [.terminal t] := rfl

theorem stackAfter_leaf_succ (stack : List Symbol) (t : Terminal) (rest : Trees) (k : Nat) :
    g.stackAfter stack (.leaf t rest) (k + 1) = g.stackAfter (stack ++ [.terminal t]) rest k := rfl

theorem stackAfter_node_of_lt (stack : List Symbol) (id : ProductionId) (children rest : Trees) {k : Nat}
    (inside : k < children.tokens.length) : g.stackAfter stack (.node id children rest) k = g.stackAfter stack children k := by
  rw [stackAfter, Trees.parse, upTo_parse_append, if_pos inside]
  rfl

theorem stackAfter_node_of_le (stack : List Symbol) {id : ProductionId} {p : Production} {children : Trees} (rest : Trees)
    (found : g.production? id = some p) (below : g.Derived children p.right.toList) {k : Nat}
    (behind : children.tokens.length ≤ k) : g.stackAfter stack (.node id children rest) k =
      g.stackAfter (stack ++ [.nonterminal p.left]) rest (k - children.tokens.length) := by
  have parsed := below.performAll_parse stack
  unfold performAll at parsed
  rw [stackAfter, Trees.parse, upTo_parse_append, if_neg (Nat.not_lt.mpr behind), Action.upTo, performAll,
    List.foldl_append, List.foldl_cons, parsed, perform_reduce found]
  rfl

end Grammar

end Lookahead
