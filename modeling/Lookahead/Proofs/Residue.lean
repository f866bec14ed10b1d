import Lookahead.Proofs.Declaration

set_option autoImplicit false

namespace Lookahead

namespace Definition

-- What is left of a step, together with what it declares: all of it if it succeeds, and of a start layout that
-- fails the layout tokens that it has admitted.
def residue? (d : Definition) (step : Step) : Option (Step × Declared) :=
  match (d.apply step).2, step with
  | .ok declared, step => some (step, declared)
  | .error _, .startLayout layout => some (.startLayout (layout.takeWhile fun l => d.DeclaresLayout l), .nothing)
  | .error _, _ => none

def residue (d : Definition) : List Step → List (Step × Declared)
  | [] => []
  | step :: rest => (d.residue? step).toList ++ residue (d.apply step).1 rest

-- Admitting a layout token declares none, so the same tokens stay declared along the list.
theorem admitStartLayout_takeWhile (d : Definition) (ls : List Layout) :
    d.admitStartLayout (ls.takeWhile fun l => d.DeclaresLayout l) = ((d.admitStartLayout ls).1, .ok ()) := by
  induction ls generalizing d with
  | nil => rfl
  | cons l rest ih =>
      by_cases declared : d.DeclaresLayout l
      · rw [List.takeWhile_cons_of_pos (by simpa using declared), admitStartLayout, admitStartLayout, if_pos declared,
          if_pos declared]
        exact ih { d with startLayout := d.startLayout.insert l }
      · rw [List.takeWhile_cons_of_neg (by simpa using declared), admitStartLayout, admitStartLayout, if_neg declared]

theorem Acts.eq_of_error {d d' : Definition} {step : Step} {e : DefinitionError} (acts : d.Acts step d' (.error e))
    (other : ∀ layout, step ≠ .startLayout layout) : d' = d := by
  cases acts with
  | startLayout layout admitted outcome => exact absurd rfl (other layout)
  | refused step e => rfl

theorem apply_residue? (d : Definition) (step kept : Step) (declared : Declared)
    (left : d.residue? step = some (kept, declared)) : d.apply kept = ((d.apply step).1, .ok declared) := by
  unfold residue? at left
  split at left
  · rename_i answer step succeeded
    obtain ⟨rfl, rfl⟩ := Prod.mk.inj (Option.some.inj left)
    exact Prod.ext rfl succeeded
  · rename_i e layout failed
    obtain ⟨rfl, rfl⟩ := Prod.mk.inj (Option.some.inj left)
    simp only [apply, admitStartLayout_takeWhile]
    rfl
  · cases left

theorem apply_eq_of_residue?_eq_none (d : Definition) (step : Step) (nothing : d.residue? step = none) :
    (d.apply step).1 = d := by
  unfold residue? at nothing
  split at nothing
  · cases nothing
  · cases nothing
  · rename_i e other failed
    exact Acts.eq_of_error (failed ▸ d.apply_acts _) other

theorem applyAll_residue (d : Definition) (steps : List Step) :
    d.applyAll ((d.residue steps).map Prod.fst) =
      ((d.applyAll steps).1, (d.residue steps).map fun entry => .ok entry.2) := by
  induction steps generalizing d with
  | nil => rfl
  | cons step rest ih =>
      have next := ih (d.apply step).1
      cases left : d.residue? step with
      | none =>
          have unchanged := d.apply_eq_of_residue?_eq_none step left
          rw [unchanged] at next
          simpa only [residue, left, Option.toList_none, List.nil_append, applyAll, unchanged] using next
      | some entry =>
          have same := d.apply_residue? step entry.1 entry.2 left
          simp only [residue, left, Option.toList_some, List.singleton_append, List.map_cons, applyAll, same, next]

theorem applyUntilError_of_applyAll (d : Definition) (steps : List Step)
    (passed : ∀ outcome ∈ (d.applyAll steps).2, outcome.isOk) :
    d.applyUntilError steps = (.ok (d.applyAll steps).1, (d.applyAll steps).2) := by
  induction steps generalizing d with
  | nil => rfl
  | cons step rest ih =>
      have here : (d.apply step).2.isOk := passed _ List.mem_cons_self
      have next := ih (d.apply step).1 fun outcome later => passed outcome (List.mem_cons_of_mem _ later)
      rw [applyUntilError, applyAll]
      split
      · rename_i e failed
        rw [failed] at here
        cases here
      · rename_i d' declared succeeded
        rw [succeeded] at next
        simp only [succeeded, next]

end Definition

namespace Grammar

theorem define_residue (steps : List Step) :
    Definition.empty.applyAll ((Definition.empty.residue steps).map Prod.fst) =
        ((Definition.empty.applyAll steps).1, (Definition.empty.residue steps).map fun entry => .ok entry.2) ∧
      define ((Definition.empty.residue steps).map Prod.fst) = (Definition.empty.applyAll steps).1.finish := by
  have run := Definition.applyAll_residue .empty steps
  have passed : ∀ outcome ∈ (Definition.empty.applyAll ((Definition.empty.residue steps).map Prod.fst)).2,
      outcome.isOk := by
    rw [run]
    intro outcome member
    obtain ⟨entry, -, rfl⟩ := List.mem_map.mp member
    rfl
  refine ⟨run, ?_⟩
  rw [define, Definition.applyUntilError_of_applyAll _ _ passed, run]
  rfl

example : Definition.empty.residue
    [.nonterminal "Line", .layout "SPACE", .layout "SPACE", .layout "TAB", .startLayout [⟨1⟩, ⟨5⟩, ⟨0⟩],
      .production [] ⟨2⟩ #[], .nonterminal "Word", .production [⟨0⟩] ⟨1⟩ #[.nonterminal ⟨2⟩]] =
    [(.nonterminal "Line", .nonterminal ⟨1⟩), (.layout "SPACE", .layout ⟨0⟩), (.layout "TAB", .layout ⟨1⟩),
      (.startLayout [⟨1⟩], .nothing), (.nonterminal "Word", .nonterminal ⟨2⟩),
      (.production [⟨0⟩] ⟨1⟩ #[.nonterminal ⟨2⟩], .production (.rule 0))] := by
  decide +kernel

end Grammar

end Lookahead
