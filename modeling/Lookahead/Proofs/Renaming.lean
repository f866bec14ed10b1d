import Lookahead.Proofs.Canonical
import Lookahead.Proofs.Family
import Mathlib.Logic.Equiv.Defs

set_option autoImplicit false

namespace Lookahead

structure Renaming where
  terminals : Equiv.Perm Nat
  layouts : Equiv.Perm Nat
  nonterminals : Equiv.Perm Nat
  rules : Equiv.Perm Nat

namespace Renaming

def symm (ρ : Renaming) : Renaming := ⟨ρ.terminals.symm, ρ.layouts.symm, ρ.nonterminals.symm, ρ.rules.symm⟩

def terminal (ρ : Renaming) (t : Terminal) : Terminal := ⟨ρ.terminals t.index⟩

def layout (ρ : Renaming) (l : Layout) : Layout := ⟨ρ.layouts l.index⟩

def nonterminal (ρ : Renaming) (n : Nonterminal) : Nonterminal := ⟨ρ.nonterminals n.index⟩

def symbol (ρ : Renaming) : Symbol → Symbol
  | .terminal t => .terminal (ρ.terminal t)
  | .nonterminal n => .nonterminal (ρ.nonterminal n)

def word (ρ : Renaming) (γ : List Symbol) : List Symbol := γ.map ρ.symbol

def production (ρ : Renaming) : ProductionId → ProductionId
  | .rule i => .rule (ρ.rules i)
  | .accept => .accept

def item (ρ : Renaming) (item : Item) : Item := ⟨ρ.production item.production, item.position⟩

def trait (ρ : Renaming) : Trait → Trait
  | .lookahead t => .lookahead (ρ.terminal t)
  | .opening l => .opening (ρ.layout l)
  | .closing l => .closing (ρ.layout l)

variable (ρ : Renaming)

@[simp] theorem symm_terminal (t : Terminal) : ρ.symm.terminal (ρ.terminal t) = t := by
  simp [terminal, symm]

@[simp] theorem symm_layout (l : Layout) : ρ.symm.layout (ρ.layout l) = l := by
  simp [layout, symm]

@[simp] theorem symm_nonterminal (n : Nonterminal) : ρ.symm.nonterminal (ρ.nonterminal n) = n := by
  simp [nonterminal, symm]

@[simp] theorem symm_symbol (x : Symbol) : ρ.symm.symbol (ρ.symbol x) = x := by
  cases x <;> simp [symbol]

@[simp] theorem symm_word (γ : List Symbol) : ρ.symm.word (ρ.word γ) = γ := by
  simp [word, Function.comp_def]

@[simp] theorem symm_production (id : ProductionId) : ρ.symm.production (ρ.production id) = id := by
  cases id with
  | rule i => simp [production, symm]
  | accept => rfl

@[simp] theorem symm_item (item : Item) : ρ.symm.item (ρ.item item) = item := by
  simp [Renaming.item]

@[simp] theorem symm_trait (x : Trait) : ρ.symm.trait (ρ.trait x) = x := by
  cases x <;> simp [trait]

theorem terminal_symm (t : Terminal) : ρ.terminal (ρ.symm.terminal t) = t := ρ.symm.symm_terminal t

theorem layout_symm (l : Layout) : ρ.layout (ρ.symm.layout l) = l := ρ.symm.symm_layout l

theorem production_symm (id : ProductionId) : ρ.production (ρ.symm.production id) = id := ρ.symm.symm_production id

theorem item_symm (item : Item) : ρ.item (ρ.symm.item item) = item := ρ.symm.symm_item item

theorem symbol_injective : Function.Injective ρ.symbol := Function.LeftInverse.injective ρ.symm_symbol

theorem word_append (γ δ : List Symbol) : ρ.word (γ ++ δ) = ρ.word γ ++ ρ.word δ := List.map_append

theorem word_cons (x : Symbol) (γ : List Symbol) : ρ.word (x :: γ) = ρ.symbol x :: ρ.word γ := rfl

theorem word_eq_nil_iff {γ : List Symbol} : ρ.word γ = [] ↔ γ = [] := List.map_eq_nil_iff

structure Renames (p q : Production) : Prop where
  left : q.left = ρ.nonterminal p.left
  right : q.right.toList = ρ.word p.right.toList
  layout : ∀ l, l ∈ p.layout ↔ ρ.layout l ∈ q.layout

variable {ρ}

theorem Renames.symm {p q : Production} (renames : ρ.Renames p q) : ρ.symm.Renames q p where
  left := by rw [renames.left, symm_nonterminal]
  right := by rw [renames.right, symm_word]
  layout l := by rw [renames.layout, ρ.layout_symm]

end Renaming

namespace Grammar

structure Renamed (ρ : Renaming) (g h : Grammar) : Prop where
  endOfInput : ρ.terminal .endOfInput = .endOfInput
  production : ∀ id p, g.production? id = some p → ∃ q, h.production? (ρ.production id) = some q ∧ ρ.Renames p q
  known : ∀ id q, h.production? (ρ.production id) = some q → ∃ p, g.production? id = some p

theorem Renamed.symm {ρ : Renaming} {g h : Grammar} (renamed : Renamed ρ g h) : Renamed ρ.symm h g where
  endOfInput := by
    have back := ρ.symm_terminal .endOfInput
    rwa [renamed.endOfInput] at back
  production id q found := by
    rw [← ρ.production_symm id] at found
    obtain ⟨p, found'⟩ := renamed.known _ q found
    obtain ⟨q', same, renames⟩ := renamed.production _ p found'
    rw [found, Option.some.injEq] at same
    exact ⟨p, found', (same ▸ renames).symm⟩
  known id p found := by
    obtain ⟨q, found', -⟩ := renamed.production _ p found
    rw [ρ.production_symm] at found'
    exact ⟨q, found'⟩

section

variable {ρ : Renaming} {g h : Grammar} (renamed : Renamed ρ g h)
include renamed

theorem Renamed.symbolAfterDot? (item : Item) :
    h.symbolAfterDot? (ρ.item item) = (g.symbolAfterDot? item).map ρ.symbol := by
  cases found : g.production? item.production with
  | none =>
      have absent : h.production? (ρ.production item.production) = none := by
        cases found' : h.production? (ρ.production item.production) with
        | none => rfl
        | some q =>
            obtain ⟨p, present⟩ := renamed.known _ q found'
            rw [found] at present
            cases present
      simp [Grammar.symbolAfterDot?, Renaming.item, found, absent]
  | some p =>
      obtain ⟨q, found', renames⟩ := renamed.production _ p found
      simp only [Grammar.symbolAfterDot?, Renaming.item, found, found', Option.bind_some]
      rw [← Array.getElem?_toList, ← Array.getElem?_toList, renames.right, Renaming.word, List.getElem?_map]

theorem Renamed.symbol_ne_endOfInput {x : Symbol} (inner : x ≠ .terminal .endOfInput) :
    ρ.symbol x ≠ .terminal .endOfInput := by
  have last : ρ.symbol (.terminal .endOfInput) = .terminal .endOfInput := congrArg Symbol.terminal renamed.endOfInput
  rw [← last]
  exact ρ.symbol_injective.ne inner

theorem Renamed.moveSymbol? {item : Item} {x : Symbol} (move : g.moveSymbol? item = some x) :
    h.moveSymbol? (ρ.item item) = some (ρ.symbol x) := by
  obtain ⟨after, inner⟩ := moveSymbol?_eq_some_iff.mp move
  refine moveSymbol?_eq_some_iff.mpr ⟨?_, renamed.symbol_ne_endOfInput inner⟩
  rw [renamed.symbolAfterDot?, after]
  rfl

theorem Renamed.derives {β γ : List Symbol} (path : g.Derives β γ) : h.Derives (ρ.word β) (ρ.word γ) := by
  induction path with
  | refl => exact .refl
  | tail _ step ih =>
      cases step with
      | apply front back id p found =>
          obtain ⟨q, found', renames⟩ := renamed.production id p found
          have next := Rewrites.apply (ρ.word front) (ρ.word back) (ρ.production id) q found'
          rw [renames.left, renames.right] at next
          refine ih.tail ?_
          rw [Renaming.word_append, Renaming.word_append, Renaming.word_append, Renaming.word_cons]
          exact next

theorem Renamed.begins {β : List Symbol} {t : Terminal} (begins : g.Begins β t) : h.Begins (ρ.word β) (ρ.terminal t) := by
  obtain ⟨ζ, path⟩ := begins
  exact ⟨ρ.word ζ, renamed.derives path⟩

theorem Renamed.begins_iff {β : List Symbol} {t : Terminal} : g.Begins β t ↔ h.Begins (ρ.word β) (ρ.terminal t) := by
  refine ⟨renamed.begins, fun begins => ?_⟩
  have back := renamed.symm.begins begins
  rwa [ρ.symm_word, ρ.symm_terminal] at back

theorem Renamed.vanishes_iff {β : List Symbol} : g.Vanishes β ↔ h.Vanishes (ρ.word β) := by
  refine ⟨fun gone => renamed.derives gone, fun gone => ?_⟩
  have back := renamed.symm.derives gone
  rwa [ρ.symm_word] at back

theorem Renamed.valid {γ : List Symbol} {item : Item} (valid : g.Valid γ item) : h.Valid (ρ.word γ) (ρ.item item) := by
  induction valid with
  | start => exact .start
  | move γ item x _ after inner ih =>
      rw [Renaming.word_append]
      refine .move (ρ.word γ) (ρ.item item) (ρ.symbol x) ih ?_ (renamed.symbol_ne_endOfInput inner)
      rw [renamed.symbolAfterDot?, after]
      rfl
  | enter γ item n id p _ after found left ih =>
      obtain ⟨q, found', renames⟩ := renamed.production id p found
      refine .enter (ρ.word γ) (ρ.item item) (ρ.nonterminal n) (ρ.production id) q ih ?_ found' (left ▸ renames.left)
      rw [renamed.symbolAfterDot?, after]
      rfl

end

end Grammar

end Lookahead
