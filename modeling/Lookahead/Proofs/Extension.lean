import Lookahead.Proofs.Declaration
import Lookahead.Proofs.Locality

set_option autoImplicit false

namespace Lookahead

-- A step that declares a name, or a production of a nonterminal that the grammar has no use for.
def Step.Aside (g : Grammar) : Step → Prop
  | .terminal _ => True
  | .layout _ => True
  | .nonterminal _ => True
  | .production _ left _ => ¬ g.Reachable left
  | .startSymbol _ => False
  | .startLayout _ => False

namespace Definition

variable {g : Grammar} {d d' d'' : Definition}

structure GrownAside (g : Grammar) (d d' : Definition) : Prop where
  startSymbol : d'.startSymbol = d.startSymbol
  startLayout : d'.startLayout = d.startLayout
  nonterminals : d.nonterminals.size ≤ d'.nonterminals.size
  rules : d.rules.toList <+: d'.rules.toList
  aside : ∀ i p, d.rules.size ≤ i → d'.rules[i]? = some p → ¬ g.Reachable p.left

theorem GrownAside.refl (g : Grammar) (d : Definition) : GrownAside g d d where
  startSymbol := rfl
  startLayout := rfl
  nonterminals := Nat.le_refl _
  rules := List.prefix_rfl
  aside _ _ beyond found := absurd (Array.getElem?_eq_some_iff.mp found).1 (Nat.not_lt_of_le beyond)

theorem GrownAside.acts {step : Step} {outcome : Except DefinitionError Declared} (grown : GrownAside g d d')
    (acts : d'.Acts step d'' outcome) (aside : step.Aside g) : GrownAside g d d'' := by
  cases acts with
  | terminal name fresh room => exact { grown with }
  | layout name fresh room => exact { grown with }
  | nonterminal name fresh room =>
      exact { grown with nonterminals := grown.nonterminals.trans (by rw [Array.size_push]; exact Nat.le_succ _) }
  | production layout left right sound =>
      refine { grown with rules := ?_, aside := fun i p beyond found => ?_ }
      · rw [Array.toList_push]
        exact grown.rules.trans (List.prefix_append _ _)
      · rw [Array.getElem?_push] at found
        split at found
        · cases found
          exact aside
        · exact grown.aside i p beyond found
  | startSymbol n declared => exact aside.elim
  | startLayout layout admitted outcome => exact aside.elim
  | refused step e => exact grown

theorem GrownAside.applyAll (grown : GrownAside g d d') (more : List Step) (aside : ∀ step ∈ more, step.Aside g) :
    GrownAside g d (d'.applyAll more).1 := by
  induction more generalizing d' with
  | nil => exact grown
  | cons step rest ih =>
      exact ih (grown.acts (apply_acts d' step) (aside step List.mem_cons_self))
        fun s member => aside s (List.mem_cons_of_mem _ member)

theorem applyAll_append (d : Definition) (steps more : List Step) :
    (d.applyAll (steps ++ more)).1 = ((d.applyAll steps).1.applyAll more).1 := by
  induction steps generalizing d with
  | nil => rfl
  | cons step rest ih => exact ih (d.apply step).1

theorem GrownAside.start? (grown : GrownAside g d d') {n : Nonterminal} (found : d.start? = some n) : d'.start? = some n := by
  unfold Definition.start? at found ⊢
  rw [grown.startSymbol]
  cases set : d.startSymbol with
  | some m => rwa [set] at found
  | none =>
      rw [set, Option.none_or] at found
      rw [Option.none_or]
      split at found
      · rename_i several
        rwa [if_pos (Nat.lt_of_lt_of_le several grown.nonterminals)]
      · cases found

theorem GrownAside.finish (grown : GrownAside g d d') (ended : d.finish = .ok g) : ∃ h, d'.finish = .ok h ∧ g.ExtendedBy h := by
  obtain ⟨start, found, rfl⟩ := Grammar.finish_declares ended
  refine ⟨⟨d'.terminals, d'.layouts, d'.nonterminals, d'.rules, start, d'.startLayout⟩, ?_, ?_⟩
  · rw [Definition.finish, grown.start? found]
  · exact ⟨rfl, grown.startLayout, grown.nonterminals, grown.rules, grown.aside⟩

end Definition

namespace Grammar

theorem table_unaffected_by_extension (steps more : List Step) {g : Grammar} {a : Automaton}
    (ended : (Definition.empty.applyAll steps).1.finish = .ok g) (aside : ∀ step ∈ more, step.Aside g)
    (returned : g.automaton = .ok a) :
    ∃ h, (Definition.empty.applyAll (steps ++ more)).1.finish = .ok h ∧ h.startSymbol = g.startSymbol ∧
      h.startLayout = g.startLayout ∧ h.automaton = .ok a ∧
      ∃ table, a.table g g.context = .ok table ∧ a.table h h.context = .ok table := by
  have accepted : g.Accepted := ⟨steps, ended⟩
  have grown := (Definition.GrownAside.refl g (Definition.empty.applyAll steps).1).applyAll more aside
  rw [← Definition.applyAll_append] at grown
  obtain ⟨h, ended', extended⟩ := grown.finish ended
  have wf := accepted.wellFormed
  have wf' : h.WellFormed := Accepted.wellFormed ⟨steps ++ more, ended'⟩
  obtain ⟨table, ran, -⟩ := table_exact wf returned
  exact ⟨h, ended', extended.startSymbol, extended.startLayout, extended.automaton wf wf' returned, table, ran,
    (extended.table wf wf' returned).trans ran⟩

def dates : List Step :=
  [.layout "DASH", .terminal "day", .terminal "month", .nonterminal "date", .nonterminal "month",
    .production [⟨2⟩] ⟨6⟩ #[Example.t 7, Example.n 7], .production [⟨0⟩, ⟨2⟩] ⟨7⟩ #[Example.t 8, Example.n 3],
    .production [] ⟨7⟩ #[]]

theorem table_unaffected_by_dates : (Definition.empty.applyAll Example.composed.steps).1.finish = .ok composed ∧
    (∀ step ∈ dates, step.Aside composed) ∧ ∃ a h table, composed.automaton = .ok a ∧
      (Definition.empty.applyAll (Example.composed.steps ++ dates)).1.finish = .ok h ∧ h.rules.size = composed.rules.size + 3 ∧
      h.automaton = .ok a ∧ a.table composed composed.context = .ok table ∧ a.table h h.context = .ok table := by
  have ended : (Definition.empty.applyAll Example.composed.steps).1.finish = .ok composed := by decide +kernel
  have new : ∀ n : Nonterminal, 6 ≤ n.index → ¬ composed.Reachable n := fun n beyond reachable =>
    Nat.not_lt_of_le beyond (reachable.knows composed_accepted.wellFormed)
  have aside : ∀ step ∈ dates, step.Aside composed := by
    simp [dates, Step.Aside, new]
  have grows : ((Definition.empty.applyAll (Example.composed.steps ++ dates)).1.finish.map fun h => h.rules.size) =
      .ok (composed.rules.size + 3) := by
    decide +kernel
  obtain ⟨a, returned⟩ : ∃ a, composed.automaton = .ok a := exists_of_isOk (by decide +kernel)
  obtain ⟨h, ended', -, -, returned', table, ran, ran'⟩ :=
    table_unaffected_by_extension Example.composed.steps dates ended aside returned
  rw [ended', Except.map, Except.ok.injEq] at grows
  exact ⟨ended, aside, a, h, table, returned, ended', grows, returned', ran, ran'⟩

end Grammar

end Lookahead
