import Lookahead.Proofs.Canonical
import Lookahead.Proofs.Outlook

set_option autoImplicit false

namespace Lookahead

namespace Grammar

variable {g : Grammar} {a : Automaton}

theorem symbolAfterDot?_eq {id : ProductionId} {p : Production} {α β : List Symbol} {x : Symbol}
    (found : g.production? id = some p) (split : p.right.toList = α ++ x :: β) :
    g.symbolAfterDot? ⟨id, α.length⟩ = some x := by
  rw [symbolAfterDot?, found, Option.bind_some, ← Array.getElem?_toList, split]
  simp

theorem cons_of_symbolAfterDot? {id : ProductionId} {p : Production} {α β : List Symbol} {x : Symbol}
    (found : g.production? id = some p) (split : p.right.toList = α ++ β)
    (after : g.symbolAfterDot? ⟨id, α.length⟩ = some x) : ∃ rest, β = x :: rest := by
  rw [symbolAfterDot?, found, Option.bind_some, ← Array.getElem?_toList, split] at after
  cases β with
  | nil => simp at after
  | cons y rest => exact ⟨rest, by simpa using after⟩

section

variable (returned : g.automaton = .ok a)
include returned

theorem dotted_start : g.Dotted a 0 0 g.accept [] g.accept.right.toList :=
  ⟨.accept, item_start returned, rfl, rfl⟩

theorem Dotted.step {s k : Nat} {p : Production} {α β : List Symbol} {x : Symbol} (here : g.Dotted a s k p α (x :: β))
    (inner : x ≠ .terminal .endOfInput) :
    ∃ t j, a.transition s x = .ok t ∧ a.Goes s k x t j ∧ g.Dotted a t j p (α ++ [x]) β ∧
      ∀ id, a.item s k = .ok ⟨id, α.length⟩ → a.item t j = .ok ⟨id, (α ++ [x]).length⟩ := by
  obtain ⟨id, at', found, split⟩ := here
  have move : g.moveSymbol? ⟨id, α.length⟩ = some x :=
    moveSymbol?_eq_some_iff.mpr ⟨symbolAfterDot?_eq found split, inner⟩
  obtain ⟨edge, taken⟩ := edge_exists returned at' move
  obtain ⟨j, moved⟩ := move_exists returned at' move taken
  obtain ⟨_, at'', -, there⟩ := move_sound returned taken moved
  rw [at', Except.ok.injEq] at at''
  subst at''
  have later : a.item edge.target j = .ok ⟨id, (α ++ [x]).length⟩ := by
    rw [List.length_append]
    exact there
  refine ⟨edge.target, j, Automaton.transition_eq_ok_iff.mpr ⟨edge, taken, rfl⟩, ⟨edge, taken, rfl, moved⟩,
    ⟨id, later, found, ?_⟩, fun id' other => ?_⟩
  · rw [split, List.append_assoc]
    rfl
  · rw [at', Except.ok.injEq, Item.mk.injEq] at other
    exact other.1 ▸ later

theorem Dotted.follow {F : Set Fact} (closed : g.Closed a F) {s k : Nat} {p : Production} {α γ β : List Symbol}
    (here : g.Dotted a s k p α (γ ++ β)) (inner : .terminal .endOfInput ∉ γ) :
    ∃ t j, a.follow s γ = .ok t ∧ g.Dotted a t j p (α ++ γ) β ∧
      (∀ id, a.item s k = .ok ⟨id, α.length⟩ → a.item t j = .ok ⟨id, (α ++ γ).length⟩) ∧
      ∀ x, .item s k x ∈ F → .item t j x ∈ F := by
  induction γ generalizing s k α with
  | nil => exact ⟨s, k, rfl, by simpa using here, by simp, fun _ => id⟩
  | cons x γ ih =>
      have first : x ≠ .terminal .endOfInput := fun same => inner (same ▸ List.mem_cons_self)
      obtain ⟨u, i, step, goes, between, same⟩ := here.step returned first
      obtain ⟨t, j, path, there, same', kept⟩ := ih between fun member => inner (List.mem_cons_of_mem x member)
      refine ⟨t, j, ?_, by simpa using there, fun id at' => by simpa using same' id (same id at'), fun y known => kept y ?_⟩
      · rw [Automaton.follow, List.foldlM_cons, step]
        exact path
      · exact closed.passed s k (.inr ⟨y, known⟩) _ (.move x u i y goes first known)

theorem follow_of_item {s k : Nat} {item : Item} (at' : a.item s k = .ok item) : ∃ γ, a.follow 0 γ = .ok s := by
  obtain ⟨kernel, here, -⟩ := (item_iff returned).mp at'
  exact follow_of_number returned here

theorem Dotted.enters (wf : g.WellFormed) {s k : Nat} {p q : Production} {α β : List Symbol} {id : ProductionId}
    (here : g.Dotted a s k p α (.nonterminal q.left :: β)) (found : g.production? id = some q) :
    ∃ i, a.item s i = .ok ⟨id, 0⟩ ∧ g.Dotted a s i q [] q.right.toList := by
  obtain ⟨id', at', found', split⟩ := here
  have opened : g.Opens ⟨id', α.length⟩ ⟨id, 0⟩ :=
    opens_iff.mpr ⟨q.left, symbolAfterDot?_eq found' split, mem_entries.mpr ⟨id, q, found, rfl, rfl⟩⟩
  obtain ⟨i, atI⟩ := item_of_opens returned wf at' opened
  exact ⟨i, atI, id, atI, found, rfl⟩

end

theorem WellFormed.ne_start_of_split (wf : g.WellFormed) {id : ProductionId} {p : Production} {α β : List Symbol}
    {n : Nonterminal} (found : g.production? id = some p) (split : p.right.toList = α ++ .nonterminal n :: β) : n ≠ .start := by
  rintro rfl
  exact wf.start_not_mem_right found (Array.mem_toList_iff.mp (by simp [split]))

theorem WellFormed.endOfInput_not_mem_of_split (wf : g.WellFormed) {id : ProductionId} {p : Production} {α β : List Symbol}
    (found : g.production? id = some p) (declared : p.left ≠ .start) (split : p.right.toList = α ++ β) :
    .terminal .endOfInput ∉ α := fun member =>
  wf.endOfInput_not_mem_right found declared (Array.mem_toList_iff.mp (by simp [split, member]))

theorem accept_split {α β : List Symbol} {n : Nonterminal} (split : g.accept.right.toList = α ++ .nonterminal n :: β) :
    α = [] ∧ n = g.startSymbol ∧ β = [.terminal .endOfInput] := by
  change [Symbol.nonterminal g.startSymbol, .terminal .endOfInput] = _ at split
  cases α with
  | nil =>
      obtain ⟨first, rfl⟩ := List.cons.inj split
      exact ⟨rfl, (Symbol.nonterminal.inj first).symm, rfl⟩
  | cons x α =>
      obtain ⟨-, rest⟩ := List.cons.inj split
      cases α with
      | nil => simp at rest
      | cons y α => simp at rest

end Grammar

end Lookahead
