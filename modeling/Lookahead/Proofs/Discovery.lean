import Lookahead.Proofs.Arrangement
import Lookahead.Proofs.Construction
import Lookahead.Proofs.Uniform
import Mathlib.Data.Prod.Lex
import Mathlib.Order.Lattice.Nat
import Mathlib.Order.WellFounded

set_option autoImplicit false

namespace Lookahead

namespace Numbering

variable {α : Type} [Ord α] [Std.TransOrd α] [Std.LawfulEqOrd α]

-- Of the values that arrive, the new ones are numbered in their order: where one of them stands, those with
-- smaller new numbers have been before.
theorem addAll_in_order {s : Numbering α} {as : List α} {k t u : Nat} {b : α} (arrives : as[k]? = some b)
    (number : (s.addAll as).values[u]? = some b) (new : s.size ≤ t) (before : t < u) :
    ∃ j < k, as[j]? = (s.addAll as).values[t]? := by
  induction as generalizing s k with
  | nil => cases arrives
  | cons a rest ih =>
      have grown : s.addAll (a :: rest) = (s.add a).addAll rest := rfl
      have kept {i : Nat} (bound : i < (s.add a).size) : (s.addAll (a :: rest)).values[i]? = (s.add a).values[i]? :=
        getElem?_of_isPrefix (prefix_addAll (s.add a) rest) i bound
      -- The first value is the only one that can be new so far.
      have first {i : Nat} {c : α} (found : (s.add a).values[i]? = some c) (fresh : s.size ≤ i) : c = a := by
        have alone : (s.addAll [a]).values[i]? = some c := found
        cases getElem?_addAll alone with
        | inl old => exact absurd (Array.getElem?_eq_some_iff.mp old).1 (Nat.not_lt_of_le fresh)
        | inr added => exact List.mem_singleton.mp added.2
      by_cases early : t < (s.add a).size
      · have found : (s.add a).values[t]? = some (s.add a).values[t] := Array.getElem?_eq_getElem early
        have atFirst := first found new
        rw [atFirst] at found
        cases k with
        | zero =>
            obtain rfl : a = b := Option.some.inj arrives
            exact absurd (number_unique _ ((kept early).trans found) number) (Nat.ne_of_lt before)
        | succ k => exact ⟨0, Nat.succ_pos k, found.symm.trans (kept early).symm⟩
      · have late : (s.add a).size ≤ t := Nat.le_of_not_lt early
        cases k with
        | zero =>
            obtain rfl : a = b := Option.some.inj arrives
            obtain ⟨i, found⟩ := (mem_toList_iff _ _).mp (mem_add.mpr (.inr rfl) : a ∈ (s.add a).toList)
            have bound : i < (s.add a).size := (Array.getElem?_eq_some_iff.mp found).1
            have same := number_unique _ ((kept bound).trans found) number
            omega
        | succ k =>
            obtain ⟨j, less, found⟩ := ih (k := k) arrives (grown ▸ number) late
            exact ⟨j + 1, Nat.succ_lt_succ less, found⟩

variable (next : α → List α) (limit : Nat)

theorem expand_discovered (s : Numbering α) (i : Nat) {t : Nat} {b : α} (found : (expand next limit s i).values[t]? = some b)
    (new : s.size ≤ t) : ∃ p a, p < t ∧ (expand next limit s i).values[p]? = some a ∧ b ∈ next a := by
  induction s, i using expand.induct next limit with
  | case1 s i bound ih =>
      rw [expand, dif_pos bound] at found ⊢
      have kept := prefix_expand next limit (s.addAll (next s.values[i])) (i + 1)
      by_cases early : t < (s.addAll (next s.values[i])).size
      · rw [getElem?_of_isPrefix kept t early] at found
        cases getElem?_addAll found with
        | inl old => exact absurd (Array.getElem?_eq_some_iff.mp old).1 (Nat.not_lt_of_le new)
        | inr added =>
            refine ⟨i, s.values[i], Nat.lt_of_lt_of_le bound.1 new, ?_, added.2⟩
            rw [getElem?_of_isPrefix ((prefix_addAll s _).trans kept) i bound.1]
            exact Array.getElem?_eq_getElem bound.1
      · exact ih found (Nat.le_of_not_lt early)
  | case2 s i bound =>
      rw [expand, dif_neg bound] at found
      exact absurd (Array.getElem?_eq_some_iff.mp found).1 (Nat.not_lt_of_le new)

-- Wherever a value is led to, those with smaller new numbers have been led to earlier, by a value with a
-- smaller number or in front of it by the same one.
theorem expand_in_order (s : Numbering α) (i : Nat) {p k t u : Nat} {a b : α}
    (here : (expand next limit s i).values[p]? = some a) (later : i ≤ p) (leads : (next a)[k]? = some b)
    (number : (expand next limit s i).values[u]? = some b) (new : s.size ≤ t) (before : t < u) :
    ∃ q j c, (q < p ∨ q = p ∧ j < k) ∧ (expand next limit s i).values[q]? = some c ∧
      (next c)[j]? = (expand next limit s i).values[t]? := by
  induction s, i using expand.induct next limit with
  | case1 s i bound ih =>
      rw [expand, dif_pos bound] at here number ⊢
      have kept := prefix_expand next limit (s.addAll (next s.values[i])) (i + 1)
      have asked : (expand next limit (s.addAll (next s.values[i])) (i + 1)).values[i]? = some s.values[i] := by
        rw [getElem?_of_isPrefix ((prefix_addAll s _).trans kept) i bound.1]
        exact Array.getElem?_eq_getElem bound.1
      by_cases same : p = i
      · subst same
        obtain rfl : s.values[p] = a := Option.some.inj (asked.symm.trans here)
        have among : b ∈ (s.addAll (next s.values[p])).toList := mem_addAll.mpr (.inr (List.mem_of_getElem? leads))
        obtain ⟨v, found⟩ := (mem_toList_iff _ _).mp among
        have inside : v < (s.addAll (next s.values[p])).size := (Array.getElem?_eq_some_iff.mp found).1
        obtain rfl := number_unique _ ((getElem?_of_isPrefix kept v inside).trans found) number
        obtain ⟨j, less, at'⟩ := addAll_in_order leads found new before
        refine ⟨p, j, s.values[p], .inr ⟨rfl, less⟩, asked, ?_⟩
        rw [at', getElem?_of_isPrefix kept t (Nat.lt_trans before inside)]
      · have after : i + 1 ≤ p := by omega
        by_cases early : t < (s.addAll (next s.values[i])).size
        · have found : (s.addAll (next s.values[i])).values[t]? = some _ := Array.getElem?_eq_getElem early
          rw [getElem?_of_isPrefix kept t early, found]
          cases getElem?_addAll found with
          | inl old => exact absurd (Array.getElem?_eq_some_iff.mp old).1 (Nat.not_lt_of_le new)
          | inr added =>
              obtain ⟨j, at'⟩ := List.mem_iff_getElem?.mp added.2
              exact ⟨i, j, s.values[i], .inl after, asked, at'⟩
        · exact ih here after number (Nat.le_of_not_lt early)
  | case2 s i bound =>
      rw [expand, dif_neg bound] at number
      have inside : u < s.size := (Array.getElem?_eq_some_iff.mp number).1
      omega

end Numbering

namespace Automaton

def Leads (a : Automaton) (s k t : Nat) : Prop :=
  ∃ state edge, a.state s = .ok state ∧ state.edges[k]? = some edge ∧ edge.target = t

-- The edges that lead to a state: each is known by its state and its place there, and states come first in
-- comparing two of them.
def inbound (a : Automaton) (t : Nat) : Set (Nat ×ₗ Nat) := {place | a.Leads (ofLex place).1 (ofLex place).2 t}

def pathLengths (a : Automaton) (t : Nat) : Set Nat := {n | ∃ γ, γ.length = n ∧ a.follow 0 γ = .ok t}

end Automaton

namespace Grammar

variable {g : Grammar} {a : Automaton} (returned : g.automaton = .ok a)
include returned

theorem targets_of_edges {s : Nat} {kernel : List Item} (here : (g.kernels g.closures).values[s]? = some kernel) :
    (g.state g.closures (g.kernels g.closures) kernel).edges.map (fun edge => (g.kernels g.closures).values[edge.target]?) =
      (g.nextKernels g.closures kernel).map some := by
  rw [nextKernels, List.map_map]
  exact map_edges returned here fun shift _ target number => (Numbering.number?_eq_some_iff _ _ _).mp number

theorem leads_iff {s k t : Nat} : a.Leads s k t ↔ ∃ kernel next, (g.kernels g.closures).values[s]? = some kernel ∧
    (g.nextKernels g.closures kernel)[k]? = some next ∧ (g.kernels g.closures).values[t]? = some next := by
  constructor
  · intro ⟨state, edge, found, listed, target⟩
    obtain ⟨kernel, here, rfl⟩ := (getElem?_states_iff returned).mp (Automaton.state_eq_ok_iff.mp found)
    have same := congrArg (·[k]?) (targets_of_edges returned here)
    simp only [List.getElem?_map, listed, Option.map_some, target] at same
    obtain ⟨next, leads, there⟩ := Option.map_eq_some_iff.mp same.symm
    exact ⟨kernel, next, here, leads, there.symm⟩
  · intro ⟨kernel, next, here, leads, there⟩
    have same := congrArg (·[k]?) (targets_of_edges returned here)
    simp only [List.getElem?_map, leads, Option.map_some] at same
    obtain ⟨edge, listed, target⟩ := Option.map_eq_some_iff.mp same
    exact ⟨_, edge, Automaton.state_eq_ok_iff.mpr ((getElem?_states_iff returned).mpr ⟨kernel, here, rfl⟩), listed,
      Numbering.number_unique _ target there⟩

theorem transition_of_leads {s k t : Nat} (leads : a.Leads s k t) : ∃ x, a.transition s x = .ok t := by
  obtain ⟨state, edge, found, listed, target⟩ := leads
  have found' := Automaton.state_eq_ok_iff.mp found
  obtain ⟨kernel, here, rfl⟩ := (getElem?_states_iff returned).mp found'
  have symbols : ((g.state g.closures (g.kernels g.closures) kernel).edges.map Edge.symbol).Nodup := by
    rw [edges_symbols returned here, shifts_symbols, ← Numbering.toList_ofList_eq_eraseDups]
    exact Numbering.nodup_toList _
  have taken := Automaton.edge_eq_ok_iff.mpr ⟨_, found', edge?_of_mem symbols (List.mem_of_getElem? listed)⟩
  exact ⟨edge.symbol, Automaton.transition_eq_ok_iff.mpr ⟨edge, taken, target⟩⟩

omit returned in
theorem leads_of_transition {s t : Nat} {x : Symbol} (step : a.transition s x = .ok t) : ∃ k, a.Leads s k t := by
  obtain ⟨edge, taken, target⟩ := Automaton.transition_eq_ok_iff.mp step
  obtain ⟨state, found, listed⟩ := Automaton.edge_eq_ok_iff.mp taken
  obtain ⟨k, at'⟩ := List.mem_iff_getElem?.mp (List.mem_of_find?_eq_some listed)
  exact ⟨k, state, edge, Automaton.state_eq_ok_iff.mpr found, at', target⟩

omit returned in
theorem size_start : (Numbering.ofList [[Item.start]]).size = 1 :=
  Numbering.size_ofList_of_nodup _ (List.nodup_singleton _)

theorem discovered {t : Nat} (bound : t < a.size) (other : t ≠ 0) : ∃ s k, s < t ∧ a.Leads s k t := by
  have here : a.states[t]? = some a.states[t] := Array.getElem?_eq_getElem bound
  obtain ⟨kernel, there, -⟩ := (getElem?_states_iff returned).mp here
  obtain ⟨s, source, earlier, found, among⟩ :=
    Numbering.expand_discovered _ _ _ _ there (size_start ▸ Nat.one_le_iff_ne_zero.mpr other)
  obtain ⟨k, leads⟩ := List.mem_iff_getElem?.mp among
  exact ⟨s, k, earlier, (leads_iff returned).mpr ⟨source, kernel, found, leads, there⟩⟩

theorem discovered_in_order {t u : Nat} (other : t ≠ 0) (before : t < u) {place : Nat ×ₗ Nat} (member : place ∈ a.inbound u) :
    ∃ earlier ∈ a.inbound t, earlier < place := by
  obtain ⟨kernel, next, here, leads, there⟩ := (leads_iff returned).mp member
  obtain ⟨s, k, source, order, found, leads'⟩ := Numbering.expand_in_order _ _ _ _ here (Nat.zero_le _) leads there
    (size_start ▸ Nat.one_le_iff_ne_zero.mpr other) before
  have bound : t < (g.kernels g.closures).values.size := Nat.lt_trans before (Array.getElem?_eq_some_iff.mp there).1
  have there' : (g.kernels g.closures).values[t]? = some _ := Array.getElem?_eq_getElem bound
  exact ⟨toLex (s, k), (leads_iff returned).mpr ⟨source, _, found, leads'.trans there', there'⟩, Prod.Lex.lt_iff.mpr order⟩

-- By induction on the path: its last edge comes no earlier than the first one to the state that is to be reached.
theorem follow_no_longer {γ : List Symbol} {t u : Nat} (path : a.follow 0 γ = .ok u) (le : t ≤ u) :
    ∃ δ, δ.length ≤ γ.length ∧ a.follow 0 δ = .ok t := by
  induction γ using List.reverseRecOn generalizing t u with
  | nil =>
      cases path
      exact ⟨[], Nat.le_refl _, Nat.le_zero.mp le ▸ rfl⟩
  | append_singleton γ x ih =>
      obtain ⟨v, path', step⟩ := Automaton.follow_append_iff.mp path
      rw [Automaton.follow_singleton] at step
      by_cases start : t = 0
      · exact ⟨[], Nat.zero_le _, start ▸ rfl⟩
      · obtain ⟨k, leads⟩ := leads_of_transition step
        have place : toLex (v, k) ∈ a.inbound u := leads
        obtain ⟨earlier, member, order⟩ : ∃ earlier ∈ a.inbound t, earlier ≤ toLex (v, k) := by
          rcases Nat.lt_or_eq_of_le le with before | rfl
          · obtain ⟨earlier, member, order⟩ := discovered_in_order returned start before place
            exact ⟨earlier, member, order.le⟩
          · exact ⟨_, place, le_rfl⟩
        obtain ⟨y, step'⟩ := transition_of_leads returned member
        obtain ⟨δ, short, path''⟩ := ih path' (Prod.Lex.monotone_fst_ofLex order)
        refine ⟨δ ++ [y], ?_, Automaton.follow_append_iff.mpr ⟨_, path'', Automaton.follow_singleton.trans step'⟩⟩
        simpa using short

theorem exists_isLeast_inbound {t : Nat} (bound : t < a.size) (other : t ≠ 0) :
    ∃ place, IsLeast (a.inbound t) place ∧ (ofLex place).1 < t := by
  obtain ⟨s, k, earlier, leads⟩ := discovered returned bound other
  have member : toLex (s, k) ∈ a.inbound t := leads
  have nonempty : (a.inbound t).Nonempty := ⟨_, member⟩
  have least : IsLeast (a.inbound t) (wellFounded_lt.min _ nonempty) :=
    ⟨wellFounded_lt.min_mem _ nonempty, fun _ member => wellFounded_lt.min_le member⟩
  have bounded : (ofLex (wellFounded_lt.min _ nonempty)).1 ≤ s := Prod.Lex.monotone_fst_ofLex (least.2 member)
  exact ⟨_, least, Nat.lt_of_le_of_lt bounded earlier⟩

theorem isLeast_pathLengths {t : Nat} (bound : t < a.size) : IsLeast (a.pathLengths t) (sInf (a.pathLengths t)) := by
  have here : a.states[t]? = some a.states[t] := Array.getElem?_eq_getElem bound
  obtain ⟨kernel, there, -⟩ := (getElem?_states_iff returned).mp here
  obtain ⟨γ, path⟩ := follow_of_number returned there
  exact ⟨Nat.sInf_mem ⟨γ.length, γ, rfl, path⟩, fun _ member => Nat.sInf_le member⟩

theorem automaton_numbered_by_discovery :
    (∀ t, t < a.size → t ≠ 0 → ∃ s x, a.transition s x = .ok t) ∧
    (∃ first : Nat → Nat ×ₗ Nat,
      (∀ t, t < a.size → t ≠ 0 → IsLeast (a.inbound t) (first t) ∧ (ofLex (first t)).1 < t) ∧
      StrictMonoOn first {t | t < a.size ∧ t ≠ 0}) ∧
    ∃ distance : Nat → Nat, (∀ t, t < a.size → IsLeast (a.pathLengths t) (distance t)) ∧
      MonotoneOn distance {t | t < a.size} := by
  refine ⟨fun t bound other => ?_, ?_, fun t => sInf (a.pathLengths t), fun t => isLeast_pathLengths returned,
    fun t bound u bound' le => ?_⟩
  · obtain ⟨s, k, -, leads⟩ := discovered returned bound other
    obtain ⟨x, step⟩ := transition_of_leads returned leads
    exact ⟨s, x, step⟩
  · have chosen : ∀ t, ∃ place, t < a.size → t ≠ 0 → IsLeast (a.inbound t) place ∧ (ofLex place).1 < t := by
      intro t
      by_cases inside : t < a.size ∧ t ≠ 0
      · obtain ⟨place, least⟩ := exists_isLeast_inbound returned inside.1 inside.2
        exact ⟨place, fun _ _ => least⟩
      · exact ⟨toLex (0, 0), fun bound other => absurd ⟨bound, other⟩ inside⟩
    choose first least using chosen
    refine ⟨first, least, fun t inside u inside' before => ?_⟩
    obtain ⟨earlier, member, order⟩ := discovered_in_order returned inside.2 before (least u inside'.1 inside'.2).1.1
    exact lt_of_le_of_lt ((least t inside.1 inside.2).1.2 member) order
  · obtain ⟨γ, length, path⟩ := (isLeast_pathLengths returned bound').1
    obtain ⟨δ, short, path'⟩ := follow_no_longer returned path le
    have shorter : δ.length ∈ a.pathLengths t := ⟨δ, rfl, path'⟩
    exact (Nat.sInf_le shorter).trans (short.trans_eq length)

omit returned in
theorem automaton_numbered_by_discovery_withNullable : ∃ (a : Automaton) (first : Nat → Nat ×ₗ Nat) (distance : Nat → Nat),
    withNullable.automaton = .ok a ∧ a.transition 1 (Example.t 3) = .ok 7 ∧ a.transition 8 (Example.t 3) = .ok 7 ∧
    IsLeast (a.inbound 7) (first 7) ∧ (ofLex (first 7)).1 ≤ 1 ∧ first 6 < first 7 ∧ IsLeast (a.pathLengths 7) (distance 7) ∧
    IsLeast (a.pathLengths 8) (distance 8) ∧ distance 7 ≤ distance 8 := by
  have shown : (do
      let a ← withNullable.automaton
      return (← a.transition 1 (Example.t 3), ← a.transition 8 (Example.t 3), a.size)) = Except.ok (7, 7, 14) := by
    decide +kernel
  simp only [bind_eq_ok_iff, pure, Except.pure, Except.ok.injEq, Prod.mk.injEq] at shown
  obtain ⟨a, returned, s, outside, t, inside, rfl, rfl, size⟩ := shown
  obtain ⟨-, ⟨first, least, increasing⟩, distance, shortest, monotone⟩ := automaton_numbered_by_discovery returned
  have bound {t : Nat} (small : t < 14) : t < a.size := size ▸ small
  have earliest := (least 7 (bound (by decide)) (by decide)).1
  obtain ⟨k, leads⟩ := leads_of_transition outside
  have member : toLex (1, k) ∈ a.inbound 7 := leads
  refine ⟨a, first, distance, returned, outside, inside, earliest, Prod.Lex.monotone_fst_ofLex (earliest.2 member), ?_,
    shortest 7 (bound (by decide)), shortest 8 (bound (by decide)), ?_⟩
  · exact increasing ⟨bound (by decide), by decide⟩ ⟨bound (by decide), by decide⟩ (by decide)
  · exact monotone (bound (by decide)) (bound (by decide)) (by decide)

end Grammar

end Lookahead
