import Lookahead.Proofs.Renaming
import Mathlib.Data.Set.Function

set_option autoImplicit false

namespace Lookahead

theorem Automaton.mem_items_iff {a : Automaton} {s : Nat} {state : State} (found : a.states[s]? = some state) {item : Item} :
    item ∈ state.items ↔ ∃ i, a.item s i = .ok item := by
  simp [Array.mem_iff_getElem?, Automaton.item_eq_ok_iff, found]

variable (ρ : Renaming) (a b : Automaton)

def Matches (s t : Nat) : Prop := ∃ γ, a.follow 0 γ = .ok s ∧ b.follow 0 (ρ.word γ) = .ok t

structure Counterpart (s i t j : Nat) : Prop where
  states : Matches ρ a b s t
  items : ∃ item, a.item s i = .ok item ∧ b.item t j = .ok (ρ.item item)

inductive Fact.Twin : Fact → Fact → Prop where
  | item (s i t j : Nat) (x : Trait) (same : Counterpart ρ a b s i t j) : Twin (.item s i x) (.item t j (ρ.trait x))
  | state (s t : Nat) (l : Layout) (same : Matches ρ a b s t) : Twin (.state s l) (.state t (ρ.layout l))

structure Paired (g h : Grammar) : Prop where
  renamed : Grammar.Renamed ρ g h
  wf : g.WellFormed
  wf' : h.WellFormed
  returned : g.automaton = .ok a
  returned' : h.automaton = .ok b

variable {ρ a b}

theorem Matches.symm {s t : Nat} (same : Matches ρ a b s t) : Matches ρ.symm b a t s := by
  obtain ⟨γ, path, path'⟩ := same
  exact ⟨ρ.word γ, path', by rwa [ρ.symm_word]⟩

theorem Counterpart.symm {s i t j : Nat} (same : Counterpart ρ a b s i t j) : Counterpart ρ.symm b a t j s i := by
  obtain ⟨item, here, there⟩ := same.items
  exact ⟨same.states.symm, ρ.item item, there, by rwa [ρ.symm_item]⟩

theorem Fact.Twin.symm {fact fact' : Fact} (twin : Twin ρ a b fact fact') : Twin ρ.symm b a fact' fact := by
  cases twin with
  | item s i t j x same =>
      have back := Twin.item t j s i (ρ.trait x) same.symm
      rwa [ρ.symm_trait] at back
  | state s t l same =>
      have back := Twin.state t s (ρ.layout l) same.symm
      rwa [ρ.symm_layout] at back

namespace Paired

variable {g h : Grammar} (paired : Paired ρ a b g h)
include paired

theorem symm : Paired ρ.symm b a h g :=
  ⟨paired.renamed.symm, paired.wf', paired.wf, paired.returned', paired.returned⟩

theorem follow {γ : List Symbol} {s : Nat} (path : a.follow 0 γ = .ok s) : ∃ t, b.follow 0 (ρ.word γ) = .ok t := by
  obtain ⟨i, item, at'⟩ := Grammar.item_of_follow paired.returned path
  have valid := paired.renamed.valid (Grammar.valid_of_item paired.wf paired.returned path at')
  obtain ⟨t, -, path', -⟩ := Grammar.item_of_valid paired.wf' paired.returned' valid
  exact ⟨t, path'⟩

theorem exists_match {s : Nat} (bound : s < a.size) : ∃ t, Matches ρ a b s t := by
  have here : a.states[s]? = some a.states[s] := Array.getElem?_eq_getElem bound
  obtain ⟨kernel, known, -⟩ := (Grammar.getElem?_states_iff paired.returned).mp here
  obtain ⟨γ, path⟩ := Grammar.follow_of_number paired.returned known
  obtain ⟨t, path'⟩ := paired.follow path
  exact ⟨t, γ, path, path'⟩

theorem exists_counterpart {s i t : Nat} {item : Item} (same : Matches ρ a b s t) (at' : a.item s i = .ok item) :
    ∃ j, b.item t j = .ok (ρ.item item) ∧ Counterpart ρ a b s i t j := by
  obtain ⟨γ, path, path'⟩ := same
  have valid := paired.renamed.valid (Grammar.valid_of_item paired.wf paired.returned path at')
  obtain ⟨u, j, path'', there⟩ := Grammar.item_of_valid paired.wf' paired.returned' valid
  rw [path', Except.ok.injEq] at path''
  subst path''
  exact ⟨j, there, ⟨γ, path, path'⟩, item, at', there⟩

theorem state_of_match {s t : Nat} (same : Matches ρ a b s t) : ∃ state, a.state s = .ok state := by
  obtain ⟨γ, path, -⟩ := same
  obtain ⟨i, item, at'⟩ := Grammar.item_of_follow paired.returned path
  obtain ⟨state, found, -⟩ := Automaton.item_eq_ok_iff.mp at'
  exact ⟨state, Automaton.state_eq_ok_iff.mpr found⟩

theorem match_unique {s t u : Nat} (first : Matches ρ a b s t) (second : Matches ρ a b s u) : t = u := by
  obtain ⟨left, atT⟩ := paired.symm.state_of_match first.symm
  obtain ⟨right, atU⟩ := paired.symm.state_of_match second.symm
  -- An item of one of them is one of the state they both match, and so of the other.
  have passes : ∀ {t u : Nat} {item : Item}, Matches ρ a b s t → Matches ρ a b s u → (∃ j, b.item t j = .ok item) →
      ∃ j, b.item u j = .ok item := by
    intro t u item first second ⟨j, at'⟩
    obtain ⟨i, here, -⟩ := paired.symm.exists_counterpart first.symm at'
    obtain ⟨k, there, -⟩ := paired.exists_counterpart second here
    exact ⟨k, by rw [there, ρ.item_symm]⟩
  refine Grammar.state_injective paired.returned' paired.wf' atT atU fun item => ?_
  rw [Automaton.mem_items_iff (Automaton.state_eq_ok_iff.mp atT), Automaton.mem_items_iff (Automaton.state_eq_ok_iff.mp atU)]
  exact ⟨passes first second, passes second first⟩

theorem counterpart_unique {s i t j u k : Nat} (first : Counterpart ρ a b s i t j) (second : Counterpart ρ a b s i u k) :
    t = u ∧ j = k := by
  obtain rfl := paired.match_unique first.states second.states
  obtain ⟨item, here, there⟩ := first.items
  obtain ⟨item', here', there'⟩ := second.items
  rw [here, Except.ok.injEq] at here'
  subst here'
  exact ⟨rfl, Grammar.item_injective paired.returned' there there'⟩

omit paired in
theorem matches_start : Matches ρ a b 0 0 := ⟨[], rfl, rfl⟩

theorem counterpart_start : Counterpart ρ a b 0 0 0 0 :=
  ⟨matches_start, .start, Grammar.item_start paired.returned, Grammar.item_start paired.returned'⟩

theorem transition {s t u : Nat} {x : Symbol} (same : Matches ρ a b s t) (step : a.transition s x = .ok u) :
    ∃ v, b.transition t (ρ.symbol x) = .ok v ∧ Matches ρ a b u v := by
  obtain ⟨γ, path, path'⟩ := same
  have longer : a.follow 0 (γ ++ [x]) = .ok u := Automaton.follow_append_iff.mpr ⟨s, path, by rwa [Automaton.follow_singleton]⟩
  obtain ⟨v, longer'⟩ := paired.follow longer
  have split := longer'
  rw [ρ.word_append] at split
  obtain ⟨w, there, last⟩ := Automaton.follow_append_iff.mp split
  rw [path', Except.ok.injEq] at there
  subst there
  refine ⟨v, ?_, γ ++ [x], longer, longer'⟩
  rw [← Automaton.follow_singleton]
  exact last

theorem dotted {s k t k' : Nat} (same : Counterpart ρ a b s k t k') {p : Production} {α β : List Symbol}
    (here : g.Dotted a s k p α β) : ∃ q, ρ.Renames p q ∧ h.Dotted b t k' q (ρ.word α) (ρ.word β) := by
  obtain ⟨id, atK, found, split⟩ := here
  obtain ⟨item, atK', there⟩ := same.items
  rw [atK, Except.ok.injEq] at atK'
  subst atK'
  obtain ⟨q, found', renames⟩ := paired.renamed.production id p found
  refine ⟨q, renames, ρ.production id, ?_, found', ?_⟩
  · rw [there, Renaming.item, Renaming.word, List.length_map]
  · rw [renames.right, split, ρ.word_append]

theorem enters {s i t j : Nat} (same : Counterpart ρ a b s i t j) {n : Nonterminal} (entry : g.Enters a s i n) :
    h.Enters b t j (ρ.nonterminal n) := by
  obtain ⟨p, ω, here, left⟩ := entry
  obtain ⟨q, renames, there⟩ := paired.dotted same here
  exact ⟨q, ρ.word ω, there, left ▸ renames.left⟩

theorem goes {s k t k' u j : Nat} (same : Counterpart ρ a b s k t k') {x : Symbol} (step : a.Goes s k x u j) :
    ∃ v j', b.Goes t k' (ρ.symbol x) v j' ∧ Counterpart ρ a b u j v j' := by
  obtain ⟨edge, taken, rfl, moved⟩ := step
  obtain ⟨item, atK, there⟩ := same.items
  obtain ⟨_, atK', move, atJ⟩ := Grammar.move_sound paired.returned taken moved
  rw [atK, Except.ok.injEq] at atK'
  subst atK'
  obtain ⟨v, step', target⟩ := paired.transition same.states (Automaton.transition_eq_ok_iff.mpr ⟨edge, taken, rfl⟩)
  obtain ⟨edge', taken', rfl⟩ := Automaton.transition_eq_ok_iff.mp step'
  obtain ⟨j', moved'⟩ := Grammar.move_exists paired.returned' there (paired.renamed.moveSymbol? move) taken'
  obtain ⟨_, again, -, atJ'⟩ := Grammar.move_sound paired.returned' taken' moved'
  rw [there, Except.ok.injEq] at again
  subst again
  exact ⟨edge'.target, j', ⟨edge', taken', rfl, moved'⟩, target, item.advance, atJ, atJ'⟩

theorem item_of_passes {F : Set Fact} {s k : Nat} {fact : Fact} (passes : g.Passes a F s k fact) :
    ∃ item, a.item s k = .ok item := by
  have dotted : ∀ {p : Production} {α β : List Symbol}, g.Dotted a s k p α β → ∃ item, a.item s k = .ok item :=
    fun ⟨id, at', _⟩ => ⟨_, at'⟩
  have goes : ∀ {x : Symbol} {t j : Nat}, a.Goes s k x t j → ∃ item, a.item s k = .ok item := fun ⟨edge, taken, _, moved⟩ => by
    obtain ⟨item, at', -⟩ := Grammar.move_sound paired.returned taken moved
    exact ⟨item, at'⟩
  cases passes with
  | first i p α β n t here => exact dotted here
  | lookahead i p α β n t here => exact dotted here
  | opening i p β n l here => exact dotted here
  | between i p α β n l here => exact dotted here
  | gap i p α β n l here => exact dotted here
  | closing i p α β n l here => exact dotted here
  | move x t j y step => exact goes step
  | arrive x t j p α β l step => exact goes step
  | before p β l here => exact dotted here
  | behind p α β l here => exact dotted here

theorem twin_item {s t i : Nat} {x : Trait} {fact : Fact} (same : Matches ρ a b s t)
    (twin : Fact.Twin ρ a b (.item s i x) fact) : ∃ j, fact = .item t j (ρ.trait x) ∧ Counterpart ρ a b s i t j := by
  cases twin with
  | item _ _ u j _ other =>
      obtain rfl := paired.match_unique same other.states
      exact ⟨j, rfl, other⟩

theorem twin_state {s t : Nat} {l : Layout} {fact : Fact} (same : Matches ρ a b s t)
    (twin : Fact.Twin ρ a b (.state s l) fact) : fact = .state t (ρ.layout l) := by
  cases twin with
  | state _ u _ other => rw [paired.match_unique same other]

theorem passes {F G : Set Fact} (into : ∀ fact ∈ F, ∀ fact', Fact.Twin ρ a b fact fact' → fact' ∈ G) {s k t k' : Nat}
    (same : Counterpart ρ a b s k t k') {fact fact' : Fact} (passes : g.Passes a F s k fact)
    (twin : Fact.Twin ρ a b fact fact') : h.Passes b G t k' fact' := by
  have known : ∀ x, .item s k x ∈ F → .item t k' (ρ.trait x) ∈ G := fun x member => into _ member _ (.item s k t k' x same)
  cases passes with
  | first i p α β n u here entry begins =>
      obtain ⟨j, rfl, other⟩ := paired.twin_item same.states twin
      obtain ⟨q, renames, there⟩ := paired.dotted same here
      exact .first j q _ _ _ _ there (paired.enters other entry) (paired.renamed.begins begins)
  | lookahead i p α β n u here entry gone member =>
      obtain ⟨j, rfl, other⟩ := paired.twin_item same.states twin
      obtain ⟨q, renames, there⟩ := paired.dotted same here
      exact .lookahead j q _ _ _ _ there (paired.enters other entry) (paired.renamed.vanishes_iff.mp gone) (known _ member)
  | opening i p β n l here entry member =>
      obtain ⟨j, rfl, other⟩ := paired.twin_item same.states twin
      obtain ⟨q, renames, there⟩ := paired.dotted same here
      exact .opening j q _ _ _ there (paired.enters other entry) (known _ member)
  | between i p α β n l here entry inside admitted =>
      obtain ⟨j, rfl, other⟩ := paired.twin_item same.states twin
      obtain ⟨q, renames, there⟩ := paired.dotted same here
      exact .between j q _ _ _ _ there (paired.enters other entry) (ρ.word_eq_nil_iff.not.mpr inside)
        ((renames.layout l).mp admitted)
  | gap i p α β n l here entry around admitted =>
      obtain ⟨j, rfl, other⟩ := paired.twin_item same.states twin
      obtain ⟨q, renames, there⟩ := paired.dotted same here
      have around' : ρ.word α ≠ [] ∨ ∃ u, h.Begins (ρ.word β) u := by
        cases around with
        | inl inside => exact .inl (ρ.word_eq_nil_iff.not.mpr inside)
        | inr begun =>
            obtain ⟨u, begins⟩ := begun
            exact .inr ⟨ρ.terminal u, paired.renamed.begins begins⟩
      exact .gap j q _ _ _ _ there (paired.enters other entry) around' ((renames.layout l).mp admitted)
  | closing i p α β n l here entry gone member =>
      obtain ⟨j, rfl, other⟩ := paired.twin_item same.states twin
      obtain ⟨q, renames, there⟩ := paired.dotted same here
      exact .closing j q _ _ _ _ there (paired.enters other entry) (paired.renamed.vanishes_iff.mp gone) (known _ member)
  | move x u j y step inner member =>
      obtain ⟨v, j', step', target⟩ := paired.goes same step
      obtain ⟨i, rfl, other⟩ := paired.twin_item target.states twin
      obtain ⟨-, rfl⟩ := paired.counterpart_unique target other
      exact .move _ _ _ _ step' (paired.renamed.symbol_ne_endOfInput inner) (known _ member)
  | arrive x u j p α β l step inner there more admitted =>
      obtain ⟨v, j', step', target⟩ := paired.goes same step
      obtain rfl := paired.twin_state target.states twin
      obtain ⟨q, renames, there'⟩ := paired.dotted target there
      exact .arrive _ _ j' q _ _ _ step' (paired.renamed.symbol_ne_endOfInput inner) there'
        (ρ.word_eq_nil_iff.not.mpr more) ((renames.layout l).mp admitted)
  | before p β l here member =>
      obtain rfl := paired.twin_state same.states twin
      obtain ⟨q, renames, there⟩ := paired.dotted same here
      exact .before q _ _ there (known _ member)
  | behind p α β l here gone member =>
      obtain rfl := paired.twin_state same.states twin
      obtain ⟨q, renames, there⟩ := paired.dotted same here
      exact .behind q _ _ _ there (paired.renamed.vanishes_iff.mp gone) (known _ member)

-- The facts whose twins are in the least family on the other side make a closed family.
theorem closed_twins : g.Closed a {fact | ∀ fact', Fact.Twin ρ a b fact fact' → fact' ∈ h.least b} := by
  have closed : h.Closed b (h.least b) := Grammar.isLeast_least.1
  refine ⟨fun l member fact' twin => ?_, fun s k active fact passed fact' twin => ?_⟩
  · cases twin with
    | item _ _ t j _ same =>
        obtain ⟨rfl, rfl⟩ := paired.counterpart_unique paired.counterpart_start same
        obtain ⟨q, found, renames⟩ := paired.renamed.production .accept g.accept rfl
        have accept : h.accept = q := Option.some.inj found
        have admitted := (renames.layout l).mp member
        rw [← accept] at admitted
        exact closed.start _ admitted
  · obtain ⟨item, at'⟩ := paired.item_of_passes passed
    obtain ⟨state, found, -⟩ := Automaton.item_eq_ok_iff.mp at'
    obtain ⟨t, states⟩ := paired.exists_match (Array.getElem?_eq_some_iff.mp found).1
    obtain ⟨k', -, same⟩ := paired.exists_counterpart states at'
    have active' : Grammar.Active (h.least b) t k' := by
      cases active with
      | inl start =>
          obtain ⟨rfl, rfl⟩ := start
          obtain ⟨rfl, rfl⟩ := paired.counterpart_unique paired.counterpart_start same
          exact .inl ⟨rfl, rfl⟩
      | inr held =>
          obtain ⟨x, member⟩ := held
          exact .inr ⟨ρ.trait x, member _ (.item s k t k' x same)⟩
    exact closed.passed t k' active' fact' (paired.passes (fun fact member => member) same passed twin)

theorem mem_least_iff {fact fact' : Fact} (twin : Fact.Twin ρ a b fact fact') : fact ∈ g.least a ↔ fact' ∈ h.least b :=
  ⟨fun member => Grammar.isLeast_least.2 paired.closed_twins member fact' twin,
    fun member => Grammar.isLeast_least.2 paired.symm.closed_twins member fact twin.symm⟩

theorem exists_bijection : ∃ f : Nat → Nat, Set.BijOn f (Set.Iio a.size) (Set.Iio b.size) ∧
    ∀ s, s < a.size → Matches ρ a b s (f s) := by
  have chosen : ∀ s, ∃ t, s < a.size → Matches ρ a b s t := by
    intro s
    by_cases bound : s < a.size
    · obtain ⟨t, same⟩ := paired.exists_match bound
      exact ⟨t, fun _ => same⟩
    · exact ⟨0, fun inside => absurd inside bound⟩
  choose f same using chosen
  refine ⟨f, ⟨fun s bound => ?_, fun s bound s' bound' equal => ?_, fun t bound => ?_⟩, same⟩
  · obtain ⟨state, found⟩ := paired.symm.state_of_match (same s bound).symm
    exact (Array.getElem?_eq_some_iff.mp (Automaton.state_eq_ok_iff.mp found)).1
  · have back := (same s' bound').symm
    rw [← equal] at back
    exact paired.symm.match_unique (same s bound).symm back
  · obtain ⟨s, back⟩ := paired.symm.exists_match bound
    have forth : Matches ρ a b s t := back.symm
    obtain ⟨state, found⟩ := paired.state_of_match forth
    have inside : s < a.size := (Array.getElem?_eq_some_iff.mp (Automaton.state_eq_ok_iff.mp found)).1
    exact ⟨s, inside, paired.match_unique (same s inside) forth⟩

end Paired

end Lookahead
