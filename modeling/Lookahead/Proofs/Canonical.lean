import Lookahead.Grammar.Examples
import Lookahead.Proofs.Collection
import Mathlib.Data.List.Induction

set_option autoImplicit false

namespace Lookahead

def Automaton.follow (a : Automaton) (s : Nat) (γ : List Symbol) : Except Fault Nat := γ.foldlM a.transition s

theorem Automaton.follow_append_iff {a : Automaton} {s t : Nat} {γ δ : List Symbol} :
    a.follow s (γ ++ δ) = .ok t ↔ ∃ u, a.follow s γ = .ok u ∧ a.follow u δ = .ok t := by
  unfold follow
  rw [List.foldlM_append]
  cases γ.foldlM a.transition s with
  | error fault => simp [bind, Except.bind]
  | ok u => simp [bind, Except.bind]

theorem Automaton.follow_singleton {a : Automaton} {s : Nat} {x : Symbol} :
    a.follow s [x] = a.transition s x := by
  unfold follow
  rw [List.foldlM_cons]
  cases a.transition s x <;> rfl

namespace Grammar

inductive Valid (g : Grammar) : List Symbol → Item → Prop where
  | start : Valid g [] .start
  | move (γ : List Symbol) (item : Item) (x : Symbol) (valid : Valid g γ item)
      (after : g.symbolAfterDot? item = some x) (inner : x ≠ .terminal .endOfInput) :
      Valid g (γ ++ [x]) item.advance
  | enter (γ : List Symbol) (item : Item) (n : Nonterminal) (id : ProductionId) (p : Production)
      (valid : Valid g γ item) (after : g.symbolAfterDot? item = some (.nonterminal n))
      (found : g.production? id = some p) (left : p.left = n) : Valid g γ ⟨id, 0⟩

variable {g : Grammar}

theorem Valid.opens {γ : List Symbol} {item entry : Item} (valid : g.Valid γ item)
    (path : Relation.ReflTransGen g.Opens item entry) : g.Valid γ entry := by
  induction path with
  | refl => exact valid
  | tail _ step ih =>
      obtain ⟨n, after, member⟩ := opens_iff.mp step
      obtain ⟨id, p, found, left, rfl⟩ := mem_entries.mp member
      exact .enter γ _ n id p ih after found left

theorem Valid.source {γ : List Symbol} {item : Item} (valid : g.Valid γ item) :
    (γ = [] ∧ Relation.ReflTransGen g.Opens .start item) ∨
      ∃ δ x source, γ = δ ++ [x] ∧ g.Valid δ source ∧ g.moveSymbol? source = some x ∧
        Relation.ReflTransGen g.Opens source.advance item := by
  induction valid with
  | start => exact .inl ⟨rfl, .refl⟩
  | move γ item x valid after inner _ =>
      exact .inr ⟨γ, x, item, rfl, valid, moveSymbol?_eq_some_iff.mpr ⟨after, inner⟩, .refl⟩
  | enter γ item n id p _ after found left ih =>
      have step : g.Opens item ⟨id, 0⟩ := opens_iff.mpr ⟨n, after, mem_entries.mpr ⟨id, p, found, left, rfl⟩⟩
      rcases ih with ⟨empty, path⟩ | ⟨δ, x, source, split, before, move, path⟩
      · exact .inl ⟨empty, path.tail step⟩
      · exact .inr ⟨δ, x, source, split, before, move, path.tail step⟩

section

variable {a : Automaton} (returned : g.automaton = .ok a)
include returned

theorem item_of_follow {γ : List Symbol} {s : Nat} (path : a.follow 0 γ = .ok s) :
    ∃ i item, a.item s i = .ok item := by
  cases γ using List.reverseRecOn with
  | nil =>
      cases path
      exact ⟨0, .start, item_start returned⟩
  | append_singleton δ x =>
      obtain ⟨u, -, step⟩ := Automaton.follow_append_iff.mp path
      rw [Automaton.follow_singleton] at step
      obtain ⟨edge, taken, rfl⟩ := Automaton.transition_eq_ok_iff.mp step
      obtain ⟨i, j, moved⟩ := exists_move returned taken
      obtain ⟨item, -, -, at'⟩ := move_sound returned taken moved
      exact ⟨j, item.advance, at'⟩

theorem follow_of_kernel {kernel : List Item} (known : kernel ∈ (g.kernels g.closures).toList) :
    ∃ γ s, a.follow 0 γ = .ok s ∧ (g.kernels g.closures).values[s]? = some kernel := by
  refine Numbering.reach_induct
    (fun kernel => ∃ γ s, a.follow 0 γ = .ok s ∧ (g.kernels g.closures).values[s]? = some kernel) ?_ ?_ kernel known
  · rintro k ⟨γ, s, path, here⟩ next among
    obtain ⟨shift, member, rfl⟩ := List.mem_map.mp among
    obtain ⟨item, inside, move⟩ := exists_shift_iff.mp ⟨shift, member, rfl⟩
    obtain ⟨i, atI⟩ := List.mem_iff_getElem?.mp inside
    obtain ⟨edge, taken⟩ := edge_exists returned ((item_iff returned).mpr ⟨k, here, atI⟩) move
    obtain ⟨l, other, here', among', same, there, -⟩ := shift_of_edge returned taken
    rw [here, Option.some.injEq] at here'
    subst here'
    -- The edge belongs to a shift on the same symbol, and that has the same kernel.
    have equal : other.kernel = shift.kernel := by
      refine Item.Increasing.ext (isKernel_shift among').increasing (isKernel_shift member).increasing fun dest => ?_
      rw [mem_kernel_of_mem_shifts among', mem_kernel_of_mem_shifts member, same]
    refine ⟨γ ++ [shift.symbol], edge.target, Automaton.follow_append_iff.mpr ⟨s, path, ?_⟩, equal ▸ there⟩
    rw [Automaton.follow_singleton]
    exact Automaton.transition_eq_ok_iff.mpr ⟨edge, taken, rfl⟩
  · intro k member
    obtain rfl := List.mem_singleton.mp member
    exact ⟨[], 0, rfl, kernel_start⟩

theorem follow_of_number {s : Nat} {kernel : List Item} (here : (g.kernels g.closures).values[s]? = some kernel) :
    ∃ γ, a.follow 0 γ = .ok s := by
  obtain ⟨γ, t, path, there⟩ := follow_of_kernel returned ((Numbering.mem_toList_iff _ _).mpr ⟨s, here⟩)
  exact ⟨γ, Numbering.number_unique _ there here ▸ path⟩

end

section

variable {a : Automaton} (wf : g.WellFormed) (returned : g.automaton = .ok a)
include wf returned

theorem item_of_path {s i : Nat} {item entry : Item} (at' : a.item s i = .ok item)
    (path : Relation.ReflTransGen g.Opens item entry) : ∃ j, a.item s j = .ok entry := by
  induction path with
  | refl => exact ⟨i, at'⟩
  | tail _ step ih =>
      obtain ⟨j, atJ⟩ := ih
      exact item_of_opens returned wf atJ step

theorem valid_of_item {γ : List Symbol} {s i : Nat} {item : Item} (path : a.follow 0 γ = .ok s)
    (at' : a.item s i = .ok item) : g.Valid γ item := by
  induction γ using List.reverseRecOn generalizing s i item with
  | nil =>
      cases path
      exact Valid.start.opens (item_of_start returned wf at')
  | append_singleton γ x ih =>
      obtain ⟨u, before, step⟩ := Automaton.follow_append_iff.mp path
      rw [Automaton.follow_singleton] at step
      obtain ⟨edge, taken, rfl⟩ := Automaton.transition_eq_ok_iff.mp step
      obtain ⟨k, source, atK, move, opened⟩ := item_of_target returned wf taken at'
      obtain ⟨after, inner⟩ := moveSymbol?_eq_some_iff.mp move
      exact (Valid.move γ source x (ih before atK) after inner).opens opened

theorem item_of_valid {γ : List Symbol} {item : Item} (valid : g.Valid γ item) :
    ∃ s i, a.follow 0 γ = .ok s ∧ a.item s i = .ok item := by
  induction γ using List.reverseRecOn generalizing item with
  | nil =>
      rcases valid.source with ⟨-, opened⟩ | ⟨δ, x, source, split, -⟩
      · obtain ⟨i, at'⟩ := item_of_path wf returned (item_start returned) opened
        exact ⟨0, i, rfl, at'⟩
      · simp at split
  | append_singleton γ x ih =>
      rcases valid.source with ⟨split, -⟩ | ⟨δ, y, source, split, before, move, opened⟩
      · simp at split
      · obtain ⟨rfl, same⟩ := List.append_inj' split rfl
        obtain rfl := (List.cons.inj same).1
        obtain ⟨u, k, path, atK⟩ := ih before
        obtain ⟨edge, taken⟩ := edge_exists returned atK move
        obtain ⟨j, moved⟩ := move_exists returned atK move taken
        obtain ⟨_, atK', -, atJ⟩ := move_sound returned taken moved
        rw [atK, Except.ok.injEq] at atK'
        subst atK'
        obtain ⟨i, at'⟩ := item_of_path wf returned atJ opened
        refine ⟨edge.target, i, Automaton.follow_append_iff.mpr ⟨u, path, ?_⟩, at'⟩
        rw [Automaton.follow_singleton]
        exact Automaton.transition_eq_ok_iff.mpr ⟨edge, taken, rfl⟩

end

theorem automaton_canonical {a : Automaton} (accepted : g.Accepted) (returned : g.automaton = .ok a) :
    (∀ γ, (∃ s, a.follow 0 γ = .ok s) ↔ ∃ item, g.Valid γ item) ∧
    (∀ γ s, a.follow 0 γ = .ok s → ∃ state, a.state s = .ok state ∧ ∀ item, item ∈ state.items ↔ g.Valid γ item) ∧
    (∀ s, s < a.size → ∃ γ, a.follow 0 γ = .ok s) ∧
    ∀ s t left right, a.state s = .ok left → a.state t = .ok right →
      (∀ item, item ∈ left.items ↔ item ∈ right.items) → s = t := by
  have wf := accepted.wellFormed
  refine ⟨fun γ => ⟨?_, ?_⟩, fun γ s path => ?_, fun s bound => ?_, fun s t left right => state_injective returned wf⟩
  · rintro ⟨s, path⟩
    obtain ⟨i, item, at'⟩ := item_of_follow returned path
    exact ⟨item, valid_of_item wf returned path at'⟩
  · rintro ⟨item, valid⟩
    obtain ⟨s, -, path, -⟩ := item_of_valid wf returned valid
    exact ⟨s, path⟩
  · obtain ⟨i, item, at'⟩ := item_of_follow returned path
    obtain ⟨state, here, -⟩ := Automaton.item_eq_ok_iff.mp at'
    refine ⟨state, Automaton.state_eq_ok_iff.mpr here, fun entry => ?_⟩
    rw [Array.mem_iff_getElem?]
    constructor
    · rintro ⟨j, found⟩
      exact valid_of_item wf returned path (Automaton.item_eq_ok_iff.mpr ⟨state, here, found⟩)
    · intro valid
      obtain ⟨t, j, path', atJ⟩ := item_of_valid wf returned valid
      rw [path, Except.ok.injEq] at path'
      subst path'
      obtain ⟨_, here', found⟩ := Automaton.item_eq_ok_iff.mp atJ
      rw [here, Option.some.injEq] at here'
      exact ⟨j, here' ▸ found⟩
  · obtain ⟨state, here⟩ : ∃ state, a.states[s]? = some state := ⟨_, Array.getElem?_eq_getElem bound⟩
    obtain ⟨kernel, known, -⟩ := (getElem?_states_iff returned).mp here
    exact follow_of_number returned known

end Grammar

theorem exists_of_isOk {ε α : Type} {e : Except ε α} (ran : e.isOk = true) : ∃ a, e = .ok a := by
  cases e with
  | error _ => cases ran
  | ok a => exact ⟨a, rfl⟩

-- A host language that embeds a query language with a layout of its own.
def composed : Grammar where
  terminals := #["#EOI", "`let`", "IDENT", "`=`", "`;`", "`select`", "`,`"]
  layouts := #["WS", "COMMENT"]
  nonterminals := #["#Start", "stmts", "stmt", "expr", "query", "columns"]
  rules := #[
    ⟨⟨1⟩, #[Example.n 1, Example.n 2], {⟨0⟩}⟩,
    ⟨⟨1⟩, #[], {⟨0⟩}⟩,
    ⟨⟨2⟩, #[Example.t 1, Example.t 2, Example.t 3, Example.n 3, Example.t 4], {⟨0⟩}⟩,
    ⟨⟨3⟩, #[Example.t 2], {⟨0⟩}⟩,
    ⟨⟨3⟩, #[Example.n 4], {⟨0⟩}⟩,
    ⟨⟨4⟩, #[Example.t 5, Example.n 5], {⟨1⟩}⟩,
    ⟨⟨5⟩, #[Example.n 5, Example.t 6, Example.t 2], {⟨1⟩}⟩,
    ⟨⟨5⟩, #[Example.t 2], {⟨1⟩}⟩]
  startSymbol := ⟨1⟩
  startLayout := {⟨0⟩}

theorem composed_accepted : composed.Accepted :=
  Grammar.accepted_of_define Example.composed.steps (by decide +kernel)

namespace Grammar

theorem automaton_canonical_composed : composed.Accepted ∧ ∃ a, composed.automaton = .ok a ∧
    ∃ s state, a.follow 0 [Example.n 1, Example.t 1, Example.t 2, Example.t 3, Example.t 5] = .ok s ∧
      a.state s = .ok state ∧ ∀ item, item ∈ state.items ↔
        composed.Valid [Example.n 1, Example.t 1, Example.t 2, Example.t 3, Example.t 5] item := by
  obtain ⟨a, returned⟩ : ∃ a, composed.automaton = .ok a := exists_of_isOk (by decide +kernel)
  have walked : (composed.automaton.bind fun a =>
      a.follow 0 [Example.n 1, Example.t 1, Example.t 2, Example.t 3, Example.t 5]).isOk = true := by decide +kernel
  rw [returned] at walked
  obtain ⟨s, path⟩ := exists_of_isOk walked
  obtain ⟨state, here, items⟩ := (automaton_canonical composed_accepted returned).2.1 _ s path
  exact ⟨composed_accepted, a, returned, s, state, path, here, items⟩

end Grammar

end Lookahead
