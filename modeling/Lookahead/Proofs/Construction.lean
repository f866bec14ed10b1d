import Lookahead.Automaton.Construction
import Lookahead.Proofs.Canonical
import Lookahead.Proofs.Outlook
import Mathlib.Data.Set.Card

set_option autoImplicit false

namespace Lookahead

namespace Numbering

variable {α : Type} [Ord α] [Std.TransOrd α] [Std.LawfulEqOrd α]

theorem getElem?_addAll {s : Numbering α} {as : List α} {j : Nat} {b : α} (found : (s.addAll as).values[j]? = some b) :
    s.values[j]? = some b ∨ s.size ≤ j ∧ b ∈ as := by
  by_cases old : j < s.size
  · rw [getElem?_of_isPrefix (prefix_addAll s as) j old] at found
    exact .inl found
  · refine .inr ⟨Nat.le_of_not_lt old, ?_⟩
    cases mem_addAll.mp ((mem_toList_iff _ _).mpr ⟨j, found⟩) with
    | inr fresh => exact fresh
    | inl known =>
        -- A value has one number, and those of the old values are smaller.
        obtain ⟨i, at'⟩ := (mem_toList_iff s b).mp known
        have bound : i < s.size := (Array.getElem?_eq_some_iff.mp at').1
        rw [← getElem?_of_isPrefix (prefix_addAll s as) i bound] at at'
        exact absurd (number_unique _ at' found ▸ bound) old

theorem expand_induct_number (next : α → List α) (limit : Nat) (holds : Nat → α → Prop)
    (step : ∀ i a, holds i a → ∀ b ∈ next a, ∀ j, i < j → holds j b) (s : Numbering α) (i : Nat)
    (start : ∀ (j : Nat) a, s.values[j]? = some a → holds j a) :
    ∀ (j : Nat) a, (expand next limit s i).values[j]? = some a → holds j a := by
  induction s, i using expand.induct next limit with
  | case1 s i bound ih =>
      rw [expand, dif_pos bound]
      refine ih fun j a found => ?_
      cases getElem?_addAll found with
      | inl old => exact start j a old
      | inr fresh =>
          refine step i s.values[i] (start i _ (Array.getElem?_eq_getElem bound.1)) a fresh.2 j ?_
          exact Nat.lt_of_lt_of_le bound.1 fresh.1
  | case2 s i bound =>
      rw [expand, dif_neg bound]
      exact start

theorem expandM_eq {ε : Type} {next : α → List α} {lookup : α → Except ε (List α)} {limit : Nat} (s : Numbering α) (i : Nat)
    (answers : ∀ a ∈ (expand next limit s i).toList, lookup a = .ok (next a)) :
    expandM lookup limit s i = .ok (expand next limit s i) := by
  induction s, i using expand.induct next limit with
  | case1 s i bound ih =>
      rw [expand, dif_pos bound] at answers ⊢
      have member : s.values[i] ∈ ((s.addAll (next s.values[i])).expand next limit (i + 1)).toList :=
        (prefix_expand next limit _ _).subset ((prefix_addAll s _).subset (by simp [toList]))
      rw [expandM, dif_pos bound, answers _ member]
      exact ih answers
  | case2 s i bound =>
      rw [expandM, dif_neg bound, expand, dif_neg bound]

end Numbering

namespace Construction

def waiting (met : Numbering (List Item)) (i : Nat) : List (Nat × List Item) := (met.toList.zipIdx.drop i).map Prod.swap

theorem waiting_eq_cons {met : Numbering (List Item)} {i : Nat} {kernel : List Item} (found : met.values[i]? = some kernel) :
    waiting met i = (i, kernel) :: waiting met (i + 1) := by
  have at' : met.toList.zipIdx[i]? = some (kernel, i) := by simpa [Numbering.toList] using found
  obtain ⟨bound, entry⟩ := List.getElem?_eq_some_iff.mp at'
  rw [waiting, List.drop_eq_getElem_cons bound, entry]
  rfl

theorem waiting_eq_nil {met : Numbering (List Item)} {i : Nat} (found : met.values[i]? = none) : waiting met i = [] := by
  have bound : met.toList.length ≤ i := by simpa [Numbering.toList] using found
  simp [waiting, bound]

theorem waiting_add {met : Numbering (List Item)} {i : Nat} {kernel : List Item} (fresh : kernel ∉ met.toList)
    (bound : i ≤ met.size) :
    waiting (met.add kernel) i = waiting met i ++ [(met.size, kernel)] := by
  have within : i ≤ met.toList.zipIdx.length := by simpa [Numbering.toList, Numbering.size] using bound
  rw [waiting, Numbering.toList_add_of_not_mem _ _ fresh, List.zipIdx_append, List.drop_append_of_le_length within]
  simp [waiting, Numbering.toList, Numbering.size]

theorem meet_known {c : Construction} {kernel : List Item} (known : kernel ∈ c.met.toList) :
    ∃ target, c.met.number? kernel = some target ∧ c.meet kernel = .ok (target, c) := by
  obtain ⟨target, number, -⟩ := Numbering.number?_of_mem _ _ known
  exact ⟨target, number, by simp [meet, number]⟩

theorem meet_new {c : Construction} {kernel : List Item} (fresh : kernel ∉ c.met.toList) :
    c.meet kernel = if c.met.size < Grammar.stateLimit then
      .ok (c.met.size, { c with met := c.met.add kernel, queue := c.queue ++ [(c.met.size, kernel)] })
    else .error .tooManyStates := by
  have unknown : c.met.number? kernel = none := by
    cases number : c.met.number? kernel with
    | none => rfl
    | some i => exact absurd ((Numbering.mem_toList_iff _ _).mpr ⟨i, (Numbering.number?_eq_some_iff _ _ _).mp number⟩) fresh
  simp [meet, unknown]

structure Grows (c c' : Construction) : Prop where
  small : c'.met.size ≤ Grammar.stateLimit
  states : c'.states = c.states
  queue : ∀ i, i ≤ c.met.size → c.queue = waiting c.met i → i ≤ c'.met.size ∧ c'.queue = waiting c'.met i

theorem Grows.trans {c c' c'' : Construction} (first : Grows c c') (second : Grows c' c'') : Grows c c'' where
  small := second.small
  states := second.states.trans first.states
  queue i bound queued := second.queue i (first.queue i bound queued).1 (first.queue i bound queued).2

variable {c : Construction} {numbers : Numbering (List Item)}

theorem number?_of_isPrefix {met : Numbering (List Item)} (kept : met.toList <+: numbers.toList) {kernel : List Item} {i : Nat}
    (number : met.number? kernel = some i) : numbers.number? kernel = some i := by
  have found := (Numbering.number?_eq_some_iff _ _ _).mp number
  refine (Numbering.number?_eq_some_iff _ _ _).mpr ?_
  rw [Numbering.getElem?_of_isPrefix kept i (Array.getElem?_eq_some_iff.mp found).1]
  exact found

theorem meet_spec {kernel : List Item} (small : c.met.size ≤ Grammar.stateLimit)
    (kept : (c.met.add kernel).toList <+: numbers.toList) :
    (Grammar.stateLimit < numbers.size ∧ c.meet kernel = .error .tooManyStates) ∨
      ∃ target c', c.meet kernel = .ok (target, c') ∧ numbers.number? kernel = some target ∧
        c'.met = c.met.add kernel ∧ Grows c c' := by
  by_cases known : kernel ∈ c.met.toList
  · have same := Numbering.toList_add_of_mem c.met kernel known
    obtain ⟨target, number, ran⟩ := meet_known known
    rw [same] at kept
    exact .inr ⟨target, c, ran, number?_of_isPrefix kept number, same.symm, small, rfl, fun i bound queued => ⟨bound, queued⟩⟩
  · have grown : (c.met.add kernel).size = c.met.size + 1 := by
      have added := congrArg List.length (Numbering.toList_add_of_not_mem _ _ known)
      simpa [Numbering.toList, Numbering.size] using added
    by_cases room : c.met.size < Grammar.stateLimit
    · have number : (c.met.add kernel).number? kernel = some c.met.size := by
        refine (Numbering.number?_eq_some_iff _ _ _).mpr ?_
        rw [← Array.getElem?_toList]
        change (c.met.add kernel).toList[c.met.size]? = some kernel
        rw [Numbering.toList_add_of_not_mem _ _ known]
        simp [Numbering.toList, Numbering.size]
      refine .inr ⟨c.met.size, { c with met := c.met.add kernel, queue := c.queue ++ [(c.met.size, kernel)] },
        by rw [meet_new known, if_pos room], number?_of_isPrefix kept number, rfl, ?_, rfl, ?_⟩
      · exact grown ▸ room
      · intro i bound queued
        refine ⟨by simp only [grown]; omega, ?_⟩
        simp only [queued]
        exact (waiting_add known bound).symm
    · refine .inl ⟨?_, by rw [meet_new known, if_neg room]⟩
      have more := kept.length_le
      simp only [Numbering.toList, Array.length_toList] at more
      simp only [Numbering.size] at grown room ⊢
      omega

theorem connect_spec {shifts : List Shift} (small : c.met.size ≤ Grammar.stateLimit)
    (kept : (c.met.addAll (shifts.map Shift.kernel)).toList <+: numbers.toList) :
    (Grammar.stateLimit < numbers.size ∧ c.connect shifts = .error .tooManyStates) ∨
      ∃ c', c.connect shifts = .ok (shifts.filterMap fun shift => (numbers.number? shift.kernel).map fun target =>
          ⟨shift.symbol, target, (shift.moved.map Prod.fst).zipIdx⟩, c') ∧
        c'.met = c.met.addAll (shifts.map Shift.kernel) ∧ Grows c c' := by
  induction shifts generalizing c with
  | nil => exact .inr ⟨c, rfl, rfl, small, rfl, fun i bound queued => ⟨bound, queued⟩⟩
  | cons shift rest ih =>
      have kept' : ((c.met.add shift.kernel).addAll (rest.map Shift.kernel)).toList <+: numbers.toList := kept
      cases meet_spec small ((Numbering.prefix_addAll _ _).trans kept') with
      | inl full => exact .inl ⟨full.1, by rw [connect, full.2]; rfl⟩
      | inr found =>
          obtain ⟨target, c', ran, number, met, grows⟩ := found
          rw [← met] at kept'
          cases ih grows.small kept' with
          | inl full => exact .inl ⟨full.1, by simp [connect, ran, full.2, bind, Except.bind]⟩
          | inr others =>
              obtain ⟨c'', ran', met', grows'⟩ := others
              refine .inr ⟨c'', ?_, by rw [met', met]; rfl, grows.trans grows'⟩
              simp [connect, ran, ran', number, bind, Except.bind, pure, Except.pure]

end Construction

namespace Grammar

variable {g : Grammar}

structure Steady (g : Grammar) (item : Item) : Prop where
  places : g.Places item
  position : item.position < positionLimit

theorem lookupSymbol_eq {item : Item} (places : g.Places item) : g.lookupSymbol item = .ok (g.symbolAfterDot? item) := by
  obtain ⟨p, found, -⟩ := places
  simp [lookupSymbol, symbolAfterDot?, found, production_eq_ok_iff.mpr found, bind, Except.bind, pure, Except.pure]

theorem lookupOpened_eq {item : Item} (places : g.Places item) : g.lookupOpened item = .ok (g.opens item) := by
  rw [lookupOpened, lookupSymbol_eq places, opens]
  cases g.symbolAfterDot? item with
  | none => rfl
  | some x => cases x <;> rfl

theorem places_of_mem_entries {n : Nonterminal} {item : Item} (member : item ∈ g.entries n) : g.Places item := by
  obtain ⟨id, p, found, -, rfl⟩ := mem_entries.mp member
  exact ⟨p, found, Nat.zero_le _⟩

theorem lookupClosures_eq : g.lookupClosures = .ok g.closures := by
  have answers : ∀ i ∈ List.range g.nonterminals.size,
      (do return (← Numbering.expandM g.lookupOpened (g.rules.size + 1) (.ofList (g.entries ⟨i⟩)) 0).toList) =
        Except.ok (g.entryClosure ⟨i⟩) := by
    intro i _
    have searched : Numbering.expandM g.lookupOpened (g.rules.size + 1) (.ofList (g.entries ⟨i⟩)) 0 =
        .ok (Numbering.reach g.opens (g.rules.size + 1) (g.entries ⟨i⟩)) := by
      refine Numbering.expandM_eq _ _ fun item member => lookupOpened_eq ?_
      exact Numbering.reach_induct g.Places (fun _ _ _ step => Opens.places step) (fun _ => places_of_mem_entries) item member
    rw [searched]
    rfl
  rw [lookupClosures, mapM_eq_map _ answers]
  rfl

theorem lookupOpenedBy_eq (wf : g.WellFormed) {item : Item} (places : g.Places item) :
    g.lookupOpenedBy g.closures item = .ok (g.openedBy g.closures item) := by
  rw [lookupOpenedBy, lookupSymbol_eq places, openedBy]
  cases after : g.symbolAfterDot? item with
  | none => rfl
  | some x =>
      cases x with
      | terminal t => rfl
      | nonterminal n =>
          have bound : n.index < g.nonterminals.size := wf.knows_symbolAfterDot after
          simp [closures, bound, bind, Except.bind, pure, Except.pure]

theorem lookupItems_eq (wf : g.WellFormed) {kernel : List Item} (places : ∀ item ∈ kernel, g.Places item) :
    g.lookupItems g.closures kernel = .ok (g.stateItems g.closures kernel) := by
  rw [lookupItems, mapM_eq_map kernel fun item member => lookupOpenedBy_eq wf (places item member)]
  rfl

theorem lookupMove_eq {entry : Item × Nat} (steady : g.Steady entry.1) :
    g.lookupMove entry = .ok ((g.moveSymbol? entry.1).map fun x => (x, entry.2, entry.1.advance)).toList := by
  rw [lookupMove, lookupSymbol_eq steady.places, moveSymbol?]
  cases g.symbolAfterDot? entry.1 with
  | none => rfl
  | some x =>
      by_cases last : x = .terminal .endOfInput
      · simp [last, bind, Except.bind, pure, Except.pure]
      · simp [last, Item.stepped, steady.position, Option.filter, bind, Except.bind, pure, Except.pure]

theorem lookupShifts_eq {items : List Item} (steady : ∀ item ∈ items, g.Steady item) :
    g.lookupShifts items = .ok (g.shifts items) := by
  have answers : ∀ entry ∈ items.zipIdx,
      g.lookupMove entry = .ok ((g.moveSymbol? entry.1).map fun x => (x, entry.2, entry.1.advance)).toList :=
    fun entry member => lookupMove_eq (steady _ (List.fst_mem_of_mem_zipIdx member))
  have gathered : (items.zipIdx.map fun entry => ((g.moveSymbol? entry.1).map fun x =>
        (x, entry.2, entry.1.advance)).toList).flatten =
      items.zipIdx.filterMap fun entry => (g.moveSymbol? entry.1).map fun x => (x, entry.2, entry.1.advance) := by
    rw [List.filterMap_eq_flatMap_toList, List.flatMap_def]
  rw [lookupShifts, mapM_eq_map _ answers]
  simp only [bind, Except.bind, pure, Except.pure, gathered]
  rfl

theorem position_le_of_mem_stateItems (wf : g.WellFormed) {kernel : List Item} {s : Nat} (bounded : ∀ k ∈ kernel, k.position ≤ s)
    {item : Item} (member : item ∈ g.stateItems g.closures kernel) : item.position ≤ s := by
  cases wf.kernel_or_opened member with
  | inl old => exact bounded item old
  | inr opened =>
      obtain ⟨k, step⟩ := opened
      rw [step.position]
      exact Nat.zero_le s

-- A dot moves on to states with greater numbers only, so that its position is no more than the number.
theorem position_le_of_number (wf : g.WellFormed) {s : Nat} {kernel : List Item}
    (here : (g.kernels g.closures).values[s]? = some kernel) {item : Item} (member : item ∈ g.stateItems g.closures kernel) :
    item.position ≤ s := by
  refine position_le_of_mem_stateItems wf ?_ member
  refine Numbering.expand_induct_number (g.nextKernels g.closures) stateLimit
    (fun s kernel => ∀ k ∈ kernel, k.position ≤ s) ?_ (.ofList [[.start]]) 0 ?_ s kernel here
  · intro i k positions next among j later dest moved
    obtain ⟨shift, chosen, rfl⟩ := List.mem_map.mp among
    obtain ⟨source, inside, -, rfl⟩ := (mem_kernel_of_mem_shifts chosen dest).mp moved
    exact Nat.lt_of_le_of_lt (position_le_of_mem_stateItems wf positions inside) later
  · intro j k found dest among
    have first : k ∈ [[Item.start]] := Numbering.mem_ofList.mp ((Numbering.mem_toList_iff _ _).mpr ⟨j, found⟩)
    rw [List.mem_singleton.mp first] at among
    rw [List.mem_singleton.mp among]
    exact Nat.zero_le j

theorem steady_of_number (wf : g.WellFormed) {s : Nat} {kernel : List Item}
    (here : (g.kernels g.closures).values[s]? = some kernel) (small : s < stateLimit) :
    ∀ item ∈ g.stateItems g.closures kernel, g.Steady item := by
  intro item member
  refine ⟨?_, Nat.lt_of_le_of_lt (position_le_of_number wf here member) small⟩
  cases wf.kernel_or_opened member with
  | inl old => exact (isKernel_of_getElem? here).placed item old
  | inr opened =>
      obtain ⟨k, step⟩ := opened
      exact step.places

end Grammar

theorem Grammar.runConstruction_of_cons {g : Grammar} {closures : Array (List Item)} {c : Construction} {number : Nat}
    {kernel : List Item} {rest : List (Nat × List Item)} (first : c.queue = (number, kernel) :: rest) :
    g.runConstruction closures c = g.build closures { c with queue := rest } number kernel >>= g.runConstruction closures := by
  rw [runConstruction, first]
  simp only
  split
  · rename_i fault built
    rw [built]
    rfl
  · rename_i c' built
    rw [built]
    rfl

namespace Construction

-- The construction after all states before number i have been stored.
structure Tracks (g : Grammar) (c : Construction) (i : Nat) : Prop where
  small : c.met.size ≤ Grammar.stateLimit
  bound : i ≤ c.met.size
  queue : c.queue = waiting c.met i
  -- The search goes on to number the kernels of the grammar.
  search : (c.met.expand (g.nextKernels g.closures) Grammar.stateLimit i) = g.kernels g.closures
  states : c.states.toList = (c.met.toList.take i).map (g.state g.closures (g.kernels g.closures))

theorem Tracks.kept {g : Grammar} {c : Construction} {i : Nat} (tracks : Tracks g c i) :
    c.met.toList <+: (g.kernels g.closures).toList := by
  rw [← tracks.search]
  exact Numbering.prefix_expand _ _ _ _

theorem tracks_start {g : Grammar} : Tracks g .start 0 where
  small := by
    rw [start, Numbering.size_ofList_of_nodup _ (List.nodup_singleton _)]
    decide
  bound := Nat.zero_le _
  queue := by
    rw [start, waiting, Numbering.toList_ofList_of_nodup _ (List.nodup_singleton _)]
    rfl
  search := rfl
  states := rfl

section

variable {g : Grammar} (wf : g.WellFormed) {c : Construction} {i : Nat}
include wf

theorem Tracks.build (tracks : Tracks g c i) {kernel : List Item} (found : c.met.values[i]? = some kernel) :
    (Grammar.stateLimit < (g.kernels g.closures).size ∧
      g.build g.closures { c with queue := waiting c.met (i + 1) } i kernel = .error .tooManyStates) ∨
    ∃ c', g.build g.closures { c with queue := waiting c.met (i + 1) } i kernel = .ok c' ∧ Tracks g c' (i + 1) := by
  have bound : i < c.met.values.size := (Array.getElem?_eq_some_iff.mp found).1
  have here : (g.kernels g.closures).values[i]? = some kernel := by
    rw [Numbering.getElem?_of_isPrefix tracks.kept i bound]
    exact found
  have stored : i = c.states.size := by
    have sizes := congrArg List.length tracks.states
    simp only [Array.length_toList, List.length_map, List.length_take, Numbering.toList] at sizes
    omega
  have items := Grammar.lookupItems_eq wf (Grammar.isKernel_of_getElem? here).placed
  have shifts := Grammar.lookupShifts_eq (Grammar.steady_of_number wf here (Nat.lt_of_lt_of_le bound tracks.small))
  have search : ((c.met.addAll (g.nextKernels g.closures kernel)).expand (g.nextKernels g.closures) Grammar.stateLimit (i + 1)) =
      g.kernels g.closures := by
    have asked : i < c.met.values.size ∧ c.met.values.size ≤ Grammar.stateLimit := ⟨bound, tracks.small⟩
    have same : c.met.values[i] = kernel := (Array.getElem?_eq_some_iff.mp found).2
    have unfolded := tracks.search
    rw [Numbering.expand, dif_pos asked, same] at unfolded
    exact unfolded
  have kept : (c.met.addAll (g.nextKernels g.closures kernel)).toList <+: (g.kernels g.closures).toList := by
    rw [← search]
    exact Numbering.prefix_expand _ _ _ _
  cases connect_spec (c := { c with queue := waiting c.met (i + 1) }) tracks.small kept with
  | inl full =>
      refine .inl ⟨full.1, ?_⟩
      rw [Grammar.build, if_pos stored, items]
      simp [shifts, full.2, bind, Except.bind]
  | inr connected =>
      obtain ⟨c', ran, met, grows⟩ := connected
      refine .inr ⟨{ c' with states := c'.states.push (g.state g.closures (g.kernels g.closures) kernel) }, ?_, ?_⟩
      · rw [Grammar.build, if_pos stored, items]
        simp only [shifts, ran, bind, Except.bind, pure, Except.pure]
        rfl
      · obtain ⟨bound', queued⟩ := grows.queue (i + 1) bound rfl
        refine ⟨grows.small, bound', queued, met ▸ search, ?_⟩
        have old : c'.met.toList.take (i + 1) = c.met.toList.take i ++ [kernel] := by
          obtain ⟨rest, split⟩ := met ▸ Numbering.prefix_addAll c.met (g.nextKernels g.closures kernel)
          have within : i + 1 ≤ c.met.toList.length := by simpa [Numbering.toList] using bound
          have last : c.met.toList[i]? = some kernel := by simpa [Numbering.toList] using found
          rw [← split, List.take_append_of_le_length within, List.take_add_one, last]
          rfl
        rw [old, List.map_append, ← tracks.states, Array.toList_push, grows.states]
        rfl

theorem Tracks.run {c : Construction} {i : Nat} (tracks : Tracks g c i) : g.runConstruction g.closures c = g.automaton := by
  cases next : c.met.values[i]? with
  | none =>
      have empty : c.queue = [] := tracks.queue.trans (waiting_eq_nil next)
      have past : c.met.values.size ≤ i := Array.getElem?_eq_none_iff.mp next
      have ended : c.met = g.kernels g.closures := by
        rw [← tracks.search, Numbering.expand, dif_neg fun inside => Nat.not_lt_of_le past inside.1]
      have all : c.states.toList = ((g.kernels g.closures).values.map (g.state g.closures (g.kernels g.closures))).toList := by
        rw [tracks.states, List.take_of_length_le (by simpa [Numbering.toList] using past), Array.toList_map, ← ended]
        rfl
      rw [Grammar.runConstruction, empty, Grammar.automaton, if_pos (ended ▸ tracks.small)]
      rw [Array.toList_inj.mp all]
  | some kernel =>
      have first : c.queue = (i, kernel) :: waiting c.met (i + 1) := tracks.queue.trans (waiting_eq_cons next)
      have fewer : { c with queue := waiting c.met (i + 1) }.remaining < c.remaining := by simp [remaining, first]
      rw [Grammar.runConstruction_of_cons first]
      cases tracks.build wf next with
      | inl full =>
          rw [full.2, Grammar.automaton, if_neg (Nat.not_le_of_lt full.1)]
          rfl
      | inr stored =>
          obtain ⟨c', built, tracks'⟩ := stored
          have less : c'.remaining < c.remaining := Grammar.build_remaining built ▸ fewer
          rw [built]
          exact tracks'.run
termination_by c.remaining

end

end Construction

namespace Grammar

-- What a string of symbols has just been moved over: the kernel of its set in the canonical collection.
def canonicalKernel (g : Grammar) (γ : List Symbol) : Set Item :=
  {item | g.Valid γ item ∧ (0 < item.position ∨ item = .start)}

def canonicalKernels (g : Grammar) : Set (Set Item) := {kernel | kernel.Nonempty ∧ ∃ γ, kernel = g.canonicalKernel γ}

def itemSet (kernel : List Item) : Set Item := {item | item ∈ kernel}

variable {g : Grammar}

theorem WellFormed.eq_of_path (wf : g.WellFormed) {k item : Item} (path : Relation.ReflTransGen g.Opens k item)
    (shape : 0 < item.position ∨ item = .start) : item = k := by
  cases Relation.ReflTransGen.cases_tail path with
  | inl same => exact same
  | inr opened =>
      obtain ⟨_, -, step⟩ := opened
      cases shape with
      | inl moved => exact absurd step.position (Nat.ne_of_gt moved)
      | inr first => exact absurd first (wf.opens_ne_start step)

theorem Valid.opened {γ : List Symbol} {item : Item} (valid : g.Valid γ item) :
    ∃ k ∈ g.canonicalKernel γ, Relation.ReflTransGen g.Opens k item := by
  cases valid.source with
  | inl first => exact ⟨.start, ⟨first.1 ▸ .start, .inr rfl⟩, first.2⟩
  | inr moved =>
      obtain ⟨δ, x, source, rfl, before, move, path⟩ := moved
      obtain ⟨after, inner⟩ := moveSymbol?_eq_some_iff.mp move
      exact ⟨source.advance, ⟨.move δ source x before after inner, .inl (Nat.succ_pos _)⟩, path⟩

theorem mem_stateItems_iff_valid (wf : g.WellFormed) {γ : List Symbol} {kernel : List Item}
    (same : itemSet kernel = g.canonicalKernel γ) {item : Item} : item ∈ g.stateItems g.closures kernel ↔ g.Valid γ item := by
  rw [wf.mem_stateItems]
  constructor
  · intro ⟨k, member, path⟩
    have valid : k ∈ g.canonicalKernel γ := same ▸ member
    exact valid.1.opens path
  · intro valid
    obtain ⟨k, member, path⟩ := valid.opened
    rw [← same] at member
    exact ⟨k, member, path⟩

theorem itemSet_start (wf : g.WellFormed) : itemSet [.start] = g.canonicalKernel [] := by
  ext item
  constructor
  · intro member
    obtain rfl := List.mem_singleton.mp member
    exact ⟨.start, .inr rfl⟩
  · intro ⟨valid, shape⟩
    cases valid.source with
    | inr moved =>
        obtain ⟨_, _, _, split, -⟩ := moved
        simp at split
    | inl first => exact List.mem_singleton.mpr (wf.eq_of_path first.2 shape)

theorem itemSet_shift (wf : g.WellFormed) {γ : List Symbol} {kernel : List Item} (same : itemSet kernel = g.canonicalKernel γ)
    {shift : Shift} (among : shift ∈ g.shifts (g.stateItems g.closures kernel)) :
    itemSet shift.kernel = g.canonicalKernel (γ ++ [shift.symbol]) := by
  ext dest
  have moved := mem_kernel_of_mem_shifts among dest
  constructor
  · intro member
    obtain ⟨source, inside, move, rfl⟩ := moved.mp member
    obtain ⟨after, inner⟩ := moveSymbol?_eq_some_iff.mp move
    exact ⟨.move γ source _ ((mem_stateItems_iff_valid wf same).mp inside) after inner, .inl (Nat.succ_pos _)⟩
  · intro ⟨valid, shape⟩
    cases valid.source with
    | inl first => exact absurd first.1 (by simp)
    | inr before =>
        obtain ⟨δ, x, source, split, earlier, move, path⟩ := before
        obtain ⟨rfl, last⟩ := List.append_inj' split rfl
        obtain rfl := (List.cons.inj last).1
        exact moved.mpr ⟨source, (mem_stateItems_iff_valid wf same).mpr earlier, move, wf.eq_of_path path shape⟩

theorem canonical_of_mem_kernels (wf : g.WellFormed) {kernel : List Item} (known : kernel ∈ (g.kernels g.closures).toList) :
    ∃ γ, itemSet kernel = g.canonicalKernel γ := by
  refine Numbering.reach_induct (fun kernel => ∃ γ, itemSet kernel = g.canonicalKernel γ) ?_ ?_ kernel known
  · intro k found next among
    obtain ⟨γ, same⟩ := found
    obtain ⟨shift, member, rfl⟩ := List.mem_map.mp among
    exact ⟨γ ++ [shift.symbol], itemSet_shift wf same member⟩
  · intro k member
    obtain rfl := List.mem_singleton.mp member
    exact ⟨[], itemSet_start wf⟩

theorem mem_kernels_of_canonical (wf : g.WellFormed) (small : (g.kernels g.closures).size ≤ stateLimit) {γ : List Symbol}
    (nonempty : (g.canonicalKernel γ).Nonempty) :
    ∃ kernel ∈ (g.kernels g.closures).toList, itemSet kernel = g.canonicalKernel γ := by
  induction γ using List.reverseRecOn with
  | nil => exact ⟨[.start], Numbering.mem_reach_of_seed List.mem_cons_self, itemSet_start wf⟩
  | append_singleton γ x ih =>
      obtain ⟨dest, valid, -⟩ := nonempty
      cases valid.source with
      | inl first => exact absurd first.1 (by simp)
      | inr before =>
          obtain ⟨δ, y, source, split, earlier, move, -⟩ := before
          obtain ⟨rfl, last⟩ := List.append_inj' split rfl
          obtain rfl := (List.cons.inj last).1
          obtain ⟨k, inside, -⟩ := earlier.opened
          obtain ⟨kernel, known, same⟩ := ih ⟨k, inside⟩
          obtain ⟨shift, among, rfl⟩ := exists_shift_iff.mpr ⟨source, (mem_stateItems_iff_valid wf same).mpr earlier, move⟩
          exact ⟨shift.kernel, Numbering.reach_closed small known (List.mem_map_of_mem among), itemSet_shift wf same among⟩

theorem itemSet_injOn : Set.InjOn itemSet {kernel | kernel ∈ (g.kernels g.closures).toList} := by
  intro k member l member' same
  obtain ⟨s, here⟩ := (Numbering.mem_toList_iff _ _).mp member
  obtain ⟨t, there⟩ := (Numbering.mem_toList_iff _ _).mp member'
  exact Item.Increasing.ext (isKernel_of_getElem? here).increasing (isKernel_of_getElem? there).increasing
    fun item => Set.ext_iff.mp same item

theorem encard_image_kernels :
    (itemSet '' {kernel | kernel ∈ (g.kernels g.closures).toList}).encard = (g.kernels g.closures).size := by
  have listed : {kernel | kernel ∈ (g.kernels g.closures).toList} =
        ((g.kernels g.closures).toList.toFinset : Set (List Item)) := by
    ext kernel
    simp
  rw [itemSet_injOn.encard_image, listed, Set.encard_coe_eq_coe_finsetCard,
    List.toFinset_card_of_nodup (Numbering.nodup_toList _)]
  rfl

theorem image_kernels_subset (wf : g.WellFormed) :
    itemSet '' {kernel | kernel ∈ (g.kernels g.closures).toList} ⊆ g.canonicalKernels := by
  rintro _ ⟨kernel, known, rfl⟩
  obtain ⟨s, here⟩ := (Numbering.mem_toList_iff _ _).mp known
  exact ⟨List.exists_mem_of_ne_nil _ (isKernel_of_getElem? here).nonempty, canonical_of_mem_kernels wf known⟩

theorem size_kernels (wf : g.WellFormed) (small : (g.kernels g.closures).size ≤ stateLimit) :
    g.canonicalKernels.encard = (g.kernels g.closures).size := by
  have all : g.canonicalKernels ⊆ itemSet '' {kernel | kernel ∈ (g.kernels g.closures).toList} := by
    rintro _ ⟨nonempty, γ, rfl⟩
    obtain ⟨kernel, known, same⟩ := mem_kernels_of_canonical wf small nonempty
    exact ⟨kernel, known, same⟩
  rw [← encard_image_kernels, Set.Subset.antisymm all (image_kernels_subset wf)]

theorem size_kernels_le_iff (wf : g.WellFormed) :
    (g.kernels g.closures).size ≤ stateLimit ↔ g.canonicalKernels.encard ≤ stateLimit := by
  constructor
  · intro small
    rw [size_kernels wf small]
    exact_mod_cast small
  · intro few
    have within := (Set.encard_le_encard (image_kernels_subset wf)).trans few
    rw [encard_image_kernels] at within
    exact_mod_cast within

theorem construct_eq_automaton (wf : g.WellFormed) : g.construct = g.automaton := by
  rw [construct, lookupClosures_eq]
  exact (Construction.tracks_start (g := g)).run wf

theorem isOk_automaton_iff : (∃ a, g.automaton = .ok a) ↔ (g.kernels g.closures).size ≤ stateLimit := by
  constructor
  · intro ⟨a, returned⟩
    exact (states_of_automaton returned).1
  · intro small
    exact ⟨_, if_pos small⟩

theorem construct_total_within_limit (accepted : g.Accepted) : g.construct = g.automaton ∧
    ((∃ a, g.construct = .ok a) ↔ g.canonicalKernels.encard ≤ 65535) ∧
    (∀ fault, g.construct = .error fault → fault = .tooManyStates ∧ fault.message = "too many LR(0) states") ∧
    ∀ a, g.construct = .ok a → a.size = g.canonicalKernels.encard ∧
      ∀ s i item, a.item s i = .ok item → item.position < a.size := by
  have wf := accepted.wellFormed
  rw [construct_eq_automaton wf]
  refine ⟨rfl, isOk_automaton_iff.trans (size_kernels_le_iff wf), fun fault failed => ?_, fun a returned => ?_⟩
  · unfold automaton at failed
    by_cases small : (g.kernels g.closures).size ≤ stateLimit
    · simp [small] at failed
    · simp only [if_neg small, Except.error.injEq] at failed
      rw [← failed]
      exact ⟨rfl, rfl⟩
  · obtain ⟨small, states⟩ := states_of_automaton returned
    have size : a.size = (g.kernels g.closures).size := by rw [Automaton.size, states, Array.size_map]; rfl
    rw [size, size_kernels wf small]
    refine ⟨rfl, fun s i item at' => ?_⟩
    obtain ⟨kernel, here, found⟩ := (item_iff returned).mp at'
    exact Nat.lt_of_le_of_lt (position_le_of_number wf here (List.mem_of_getElem? found)) (Array.getElem?_eq_some_iff.mp here).1

theorem construct_total_within_limit_composed : composed.Accepted ∧ composed.canonicalKernels.encard ≤ 65535 ∧
    ∃ a, composed.construct = .ok a ∧ a.size = composed.canonicalKernels.encard ∧
      ∀ s i item, a.item s i = .ok item → item.position < a.size := by
  obtain ⟨same, bounded, -, sized⟩ := construct_total_within_limit composed_accepted
  obtain ⟨a, returned⟩ : ∃ a, composed.automaton = .ok a := exists_of_isOk (by decide +kernel)
  rw [← same] at returned
  exact ⟨composed_accepted, bounded.mp ⟨a, returned⟩, a, returned, sized a returned⟩

end Grammar

end Lookahead
