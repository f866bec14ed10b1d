import Lookahead.Proofs.Kernel
import Mathlib.Data.List.Nodup

set_option autoImplicit false

namespace Lookahead

namespace Automaton

variable {a : Automaton}

theorem state_eq_ok_iff {s : Nat} {state : State} : a.state s = .ok state ↔ a.states[s]? = some state := by
  unfold Automaton.state
  cases a.states[s]? with
  | none => simp
  | some found => simp

theorem item_eq_ok_iff {s i : Nat} {item : Item} :
    a.item s i = .ok item ↔ ∃ state, a.states[s]? = some state ∧ state.items[i]? = some item := by
  unfold Automaton.item Automaton.state
  cases a.states[s]? with
  | none => simp [bind, Except.bind]
  | some state => cases at' : state.items[i]? <;> simp [bind, Except.bind, at']

theorem edge_eq_ok_iff {s : Nat} {x : Symbol} {edge : Edge} :
    a.edge s x = .ok edge ↔ ∃ state, a.states[s]? = some state ∧ state.edge? x = some edge := by
  unfold Automaton.edge Automaton.state
  cases a.states[s]? with
  | none => simp [bind, Except.bind]
  | some state => cases at' : state.edge? x <;> simp [bind, Except.bind, at']

theorem transition_eq_ok_iff {s t : Nat} {x : Symbol} :
    a.transition s x = .ok t ↔ ∃ edge, a.edge s x = .ok edge ∧ edge.target = t := by
  unfold transition
  cases a.edge s x with
  | error fault => simp [bind, Except.bind]
  | ok edge => simp [bind, Except.bind, pure, Except.pure]

theorem moves_eq_ok_iff {s : Nat} {x : Symbol} {moves : List (Nat × Nat)} :
    a.moves s x = .ok moves ↔ ∃ edge, a.edge s x = .ok edge ∧ edge.moves = moves := by
  unfold Automaton.moves
  cases a.edge s x with
  | error fault => simp [bind, Except.bind]
  | ok edge => simp [bind, Except.bind, pure, Except.pure]

end Automaton

namespace Grammar

variable {g : Grammar}

def Places (g : Grammar) (item : Item) : Prop :=
  ∃ p, g.production? item.production = some p ∧ item.position ≤ p.right.size

theorem Opens.places {item entry : Item} (step : g.Opens item entry) : g.Places entry := by
  obtain ⟨n, -, member⟩ := opens_iff.mp step
  obtain ⟨id, p, found, -, rfl⟩ := mem_entries.mp member
  exact ⟨p, found, Nat.zero_le _⟩

theorem Opens.position {item entry : Item} (step : g.Opens item entry) : entry.position = 0 := by
  obtain ⟨n, -, member⟩ := opens_iff.mp step
  obtain ⟨id, p, found, -, rfl⟩ := mem_entries.mp member
  rfl

theorem WellFormed.opens_ne_start (wf : g.WellFormed) {item entry : Item} (step : g.Opens item entry) :
    entry ≠ .start := by
  obtain ⟨n, after, member⟩ := opens_iff.mp step
  obtain ⟨id, p, found, rfl, rfl⟩ := mem_entries.mp member
  intro same
  obtain ⟨rfl, -⟩ := Item.mk.inj same
  cases found
  obtain ⟨q, found', at'⟩ := Option.bind_eq_some_iff.mp after
  exact wf.start_not_mem_right found' (Array.mem_of_getElem? at')

theorem places_advance {item : Item} {x : Symbol} (move : g.moveSymbol? item = some x) :
    g.Places item.advance := by
  obtain ⟨after, -⟩ := moveSymbol?_eq_some_iff.mp move
  obtain ⟨p, found, at'⟩ := Option.bind_eq_some_iff.mp after
  exact ⟨p, found, (Array.getElem?_eq_some_iff.mp at').1⟩

structure IsKernel (g : Grammar) (kernel : List Item) : Prop where
  increasing : Item.Increasing kernel
  nonempty : kernel ≠ []
  placed : ∀ item ∈ kernel, g.Places item
  moved : kernel = [.start] ∨ ∀ item ∈ kernel, 0 < item.position

theorem isKernel_start : g.IsKernel [.start] where
  increasing := List.pairwise_singleton _ _
  nonempty := List.cons_ne_nil _ _
  placed item member := by
    obtain rfl := List.mem_singleton.mp member
    exact ⟨g.accept, rfl, Nat.zero_le _⟩
  moved := .inl rfl

theorem isKernel_shift {kernel : List Item} {shift : Shift}
    (among : shift ∈ g.shifts (g.stateItems g.closures kernel)) : g.IsKernel shift.kernel where
  increasing := kernel_increasing (Numbering.nodup_toList _) among
  nonempty := by
    obtain ⟨item, member, move⟩ := exists_shift_iff.mp ⟨shift, among, rfl⟩
    exact List.ne_nil_of_mem ((mem_kernel_of_mem_shifts among _).mpr ⟨item, member, move, rfl⟩)
  placed dest member := by
    obtain ⟨item, -, move, rfl⟩ := (mem_kernel_of_mem_shifts among dest).mp member
    exact places_advance move
  moved := by
    refine .inr fun dest member => ?_
    obtain ⟨item, -, -, rfl⟩ := (mem_kernel_of_mem_shifts among dest).mp member
    exact Nat.succ_pos _

theorem WellFormed.mem_kernel_iff (wf : g.WellFormed) {kernel : List Item} (isKernel : g.IsKernel kernel) (item : Item) :
    item ∈ kernel ↔ item ∈ g.stateItems g.closures kernel ∧ (0 < item.position ∨ item = .start) := by
  constructor
  · intro member
    refine ⟨wf.mem_stateItems.mpr ⟨item, member, .refl⟩, ?_⟩
    rcases isKernel.moved with rfl | positive
    · exact .inr (List.mem_singleton.mp member)
    · exact .inl (positive item member)
  · intro ⟨inside, shape⟩
    cases wf.kernel_or_opened inside with
    | inl member => exact member
    | inr opened =>
        obtain ⟨k, step⟩ := opened
        cases shape with
        | inl positive => exact absurd step.position (Nat.ne_of_gt positive)
        | inr first => exact absurd first (wf.opens_ne_start step)

theorem isKernel_of_getElem? {s : Nat} {kernel : List Item}
    (at' : (g.kernels g.closures).values[s]? = some kernel) : g.IsKernel kernel := by
  refine Numbering.reach_induct g.IsKernel ?_ ?_ kernel ((Numbering.mem_toList_iff _ _).mpr ⟨s, at'⟩)
  · intro k _ next among
    obtain ⟨shift, member, rfl⟩ := List.mem_map.mp among
    exact isKernel_shift member
  · intro k member
    obtain rfl := List.mem_singleton.mp member
    exact isKernel_start

theorem kernel_start : (g.kernels g.closures).values[0]? = some [Item.start] := by
  have kept := Numbering.prefix_expand (g.nextKernels g.closures) stateLimit (.ofList [[Item.start]]) 0
  have first : (Numbering.ofList [[Item.start]]).values[0]? = some [Item.start] := by
    rw [← Array.getElem?_toList]
    change (Numbering.ofList [[Item.start]]).toList[0]? = _
    rw [Numbering.toList_ofList_of_nodup _ (by simp)]
    rfl
  rw [← first]
  exact Numbering.getElem?_of_isPrefix kept 0 (Array.getElem?_eq_some_iff.mp first).1

section

variable {a : Automaton} (returned : g.automaton = .ok a)
include returned

theorem states_of_automaton : (g.kernels g.closures).size ≤ stateLimit ∧
    a.states = (g.kernels g.closures).values.map (g.state g.closures (g.kernels g.closures)) := by
  unfold automaton at returned
  simp only at returned
  split at returned
  · rename_i small
    exact ⟨small, (congrArg Automaton.states (Except.ok.inj returned)).symm⟩
  · cases returned

theorem getElem?_states_iff {s : Nat} {state : State} : a.states[s]? = some state ↔
    ∃ kernel, (g.kernels g.closures).values[s]? = some kernel ∧
      state = g.state g.closures (g.kernels g.closures) kernel := by
  rw [(states_of_automaton returned).2, Array.getElem?_map, Option.map_eq_some_iff]
  simp only [eq_comm]

theorem item_iff {s i : Nat} {item : Item} : a.item s i = .ok item ↔
    ∃ kernel, (g.kernels g.closures).values[s]? = some kernel ∧
      (g.stateItems g.closures kernel)[i]? = some item := by
  simp only [Automaton.item_eq_ok_iff, getElem?_states_iff returned]
  constructor
  · rintro ⟨_, ⟨kernel, at', rfl⟩, found⟩
    exact ⟨kernel, at', by simpa [state] using found⟩
  · rintro ⟨kernel, at', found⟩
    exact ⟨_, ⟨kernel, at', rfl⟩, by simpa [state] using found⟩

theorem shift_of_edge {s : Nat} {x : Symbol} {edge : Edge} (taken : a.edge s x = .ok edge) :
    ∃ kernel shift, (g.kernels g.closures).values[s]? = some kernel ∧
      shift ∈ g.shifts (g.stateItems g.closures kernel) ∧ shift.symbol = x ∧
      (g.kernels g.closures).values[edge.target]? = some shift.kernel ∧
      edge.moves = (shift.moved.map Prod.fst).zipIdx := by
  obtain ⟨_, found, edge⟩ := Automaton.edge_eq_ok_iff.mp taken
  obtain ⟨kernel, at', rfl⟩ := (getElem?_states_iff returned).mp found
  have same := List.find?_some edge
  have member := List.mem_of_find?_eq_some edge
  simp only [state, List.mem_filterMap, Option.map_eq_some_iff] at member
  obtain ⟨shift, among, target, number, rfl⟩ := member
  exact ⟨kernel, shift, at', among, of_decide_eq_true same, (Numbering.number?_eq_some_iff _ _ _).mp number, rfl⟩

theorem number_of_shift {s : Nat} {kernel : List Item} (here : (g.kernels g.closures).values[s]? = some kernel)
    {shift : Shift} (among : shift ∈ g.shifts (g.stateItems g.closures kernel)) :
    ∃ target, (g.kernels g.closures).number? shift.kernel = some target := by
  have known : shift.kernel ∈ (g.kernels g.closures).toList :=
    Numbering.reach_closed (states_of_automaton returned).1 ((Numbering.mem_toList_iff _ _).mpr ⟨s, here⟩)
      (List.mem_map_of_mem among)
  obtain ⟨target, number, -⟩ := Numbering.number?_of_mem _ _ known
  exact ⟨target, number⟩

theorem edge_exists {s i : Nat} {item : Item} {x : Symbol} (at' : a.item s i = .ok item)
    (move : g.moveSymbol? item = some x) : ∃ edge, a.edge s x = .ok edge := by
  obtain ⟨kernel, here, found⟩ := (item_iff returned).mp at'
  obtain ⟨shift, among, same⟩ := exists_shift_iff.mpr ⟨item, List.mem_of_getElem? found, move⟩
  obtain ⟨target, number⟩ := number_of_shift returned here among
  have present : ((g.state g.closures (g.kernels g.closures) kernel).edge? x).isSome = true := by
    refine List.find?_isSome.mpr ⟨⟨shift.symbol, target, (shift.moved.map Prod.fst).zipIdx⟩, ?_, by simpa using same⟩
    simp only [state, List.mem_filterMap, Option.map_eq_some_iff]
    exact ⟨shift, among, target, number, rfl⟩
  obtain ⟨edge, taken⟩ := Option.isSome_iff_exists.mp present
  exact ⟨edge, Automaton.edge_eq_ok_iff.mpr ⟨_, (getElem?_states_iff returned).mpr ⟨kernel, here, rfl⟩, taken⟩⟩

theorem move_sound {s i j : Nat} {x : Symbol} {edge : Edge} (taken : a.edge s x = .ok edge)
    (move : (i, j) ∈ edge.moves) :
    ∃ item, a.item s i = .ok item ∧ g.moveSymbol? item = some x ∧ a.item edge.target j = .ok item.advance := by
  obtain ⟨kernel, shift, here, among, rfl, there, moves⟩ := shift_of_edge returned taken
  rw [moves, List.mk_mem_zipIdx_iff_getElem?, List.getElem?_map, Option.map_eq_some_iff] at move
  obtain ⟨⟨_, dest⟩, atJ, rfl⟩ := move
  obtain ⟨item, atI, symbol, rfl⟩ := (mem_shifts among _ dest).mp (List.mem_of_getElem? atJ)
  refine ⟨item, (item_iff returned).mpr ⟨kernel, here, atI⟩, symbol, (item_iff returned).mpr ⟨shift.kernel, there, ?_⟩⟩
  have inKernel : shift.kernel[j]? = some item.advance := by
    rw [Shift.kernel, List.getElem?_map, atJ]
    rfl
  obtain ⟨rest, kept⟩ := prefix_stateItems g.closures (isKernel_shift among).increasing.nodup
  obtain ⟨bound, -⟩ := List.getElem?_eq_some_iff.mp inKernel
  rw [← kept, List.getElem?_append_left bound]
  exact inKernel

theorem move_exists {s i : Nat} {x : Symbol} {item : Item} {edge : Edge} (at' : a.item s i = .ok item)
    (move : g.moveSymbol? item = some x) (taken : a.edge s x = .ok edge) : ∃ j, (i, j) ∈ edge.moves := by
  obtain ⟨kernel, shift, here, among, rfl, -, moves⟩ := shift_of_edge returned taken
  obtain ⟨_, here', found⟩ := (item_iff returned).mp at'
  rw [here, Option.some.injEq] at here'
  subst here'
  have moved := (mem_shifts among i item.advance).mpr ⟨item, found, move, rfl⟩
  obtain ⟨j, atJ⟩ := List.mem_iff_getElem?.mp moved
  refine ⟨j, ?_⟩
  rw [moves, List.mk_mem_zipIdx_iff_getElem?, List.getElem?_map, atJ]
  rfl

theorem exists_move {s : Nat} {x : Symbol} {edge : Edge} (taken : a.edge s x = .ok edge) : ∃ i j, (i, j) ∈ edge.moves := by
  obtain ⟨kernel, shift, here, among, rfl, -⟩ := shift_of_edge returned taken
  obtain ⟨source, member, move⟩ := exists_shift_iff.mp ⟨shift, among, rfl⟩
  obtain ⟨i, atI⟩ := List.mem_iff_getElem?.mp member
  obtain ⟨j, moved⟩ := move_exists returned ((item_iff returned).mpr ⟨kernel, here, atI⟩) move taken
  exact ⟨i, j, moved⟩

theorem item_of_target (wf : g.WellFormed) {s j : Nat} {x : Symbol} {item : Item} {edge : Edge}
    (taken : a.edge s x = .ok edge) (at' : a.item edge.target j = .ok item) :
    ∃ i source, a.item s i = .ok source ∧ g.moveSymbol? source = some x ∧
      Relation.ReflTransGen g.Opens source.advance item := by
  obtain ⟨kernel, shift, here, among, rfl, there, -⟩ := shift_of_edge returned taken
  obtain ⟨_, there', found⟩ := (item_iff returned).mp at'
  rw [there, Option.some.injEq] at there'
  subst there'
  obtain ⟨k, member, path⟩ := wf.mem_stateItems.mp (List.mem_of_getElem? found)
  obtain ⟨source, inside, move, rfl⟩ := (mem_kernel_of_mem_shifts among k).mp member
  obtain ⟨i, atI⟩ := List.mem_iff_getElem?.mp inside
  exact ⟨i, source, (item_iff returned).mpr ⟨kernel, here, atI⟩, move, path⟩

theorem item_start : a.item 0 0 = .ok .start := by
  refine (item_iff returned).mpr ⟨[.start], kernel_start, ?_⟩
  obtain ⟨rest, kept⟩ := prefix_stateItems g.closures (isKernel_start (g := g)).increasing.nodup
  rw [← kept]
  rfl

theorem item_of_start (wf : g.WellFormed) {j : Nat} {item : Item} (at' : a.item 0 j = .ok item) :
    Relation.ReflTransGen g.Opens .start item := by
  obtain ⟨kernel, here, found⟩ := (item_iff returned).mp at'
  rw [kernel_start, Option.some.injEq] at here
  subst here
  obtain ⟨k, member, path⟩ := wf.mem_stateItems.mp (List.mem_of_getElem? found)
  obtain rfl := List.mem_singleton.mp member
  exact path

theorem item_places (wf : g.WellFormed) {s i : Nat} {item : Item} (at' : a.item s i = .ok item) :
    g.Places item := by
  obtain ⟨kernel, here, found⟩ := (item_iff returned).mp at'
  cases wf.kernel_or_opened (List.mem_of_getElem? found) with
  | inl member => exact (isKernel_of_getElem? here).placed item member
  | inr opened =>
      obtain ⟨k, step⟩ := opened
      exact step.places

theorem item_of_opens (wf : g.WellFormed) {s i : Nat} {item entry : Item} (at' : a.item s i = .ok item)
    (step : g.Opens item entry) : ∃ j, a.item s j = .ok entry := by
  obtain ⟨kernel, here, found⟩ := (item_iff returned).mp at'
  obtain ⟨k, member, path⟩ := wf.mem_stateItems.mp (List.mem_of_getElem? found)
  obtain ⟨j, atJ⟩ := List.mem_iff_getElem?.mp (wf.mem_stateItems.mpr ⟨k, member, path.tail step⟩)
  exact ⟨j, (item_iff returned).mpr ⟨kernel, here, atJ⟩⟩

theorem item_injective {s i j : Nat} {item : Item} (atI : a.item s i = .ok item) (atJ : a.item s j = .ok item) :
    i = j := by
  obtain ⟨kernel, here, foundI⟩ := (item_iff returned).mp atI
  obtain ⟨_, here', foundJ⟩ := (item_iff returned).mp atJ
  rw [here, Option.some.injEq] at here'
  subst here'
  obtain ⟨boundI, eqI⟩ := List.getElem?_eq_some_iff.mp foundI
  obtain ⟨boundJ, eqJ⟩ := List.getElem?_eq_some_iff.mp foundJ
  exact (List.Nodup.getElem_inj_iff (Numbering.nodup_toList _)).mp (eqI.trans eqJ.symm)

theorem state_injective (wf : g.WellFormed) {s t : Nat} {left right : State} (atS : a.state s = .ok left)
    (atT : a.state t = .ok right) (same : ∀ item, item ∈ left.items ↔ item ∈ right.items) : s = t := by
  obtain ⟨k, here, rfl⟩ := (getElem?_states_iff returned).mp (Automaton.state_eq_ok_iff.mp atS)
  obtain ⟨l, there, rfl⟩ := (getElem?_states_iff returned).mp (Automaton.state_eq_ok_iff.mp atT)
  simp only [state, List.mem_toArray] at same
  have equal : k = l := by
    refine Item.Increasing.ext (isKernel_of_getElem? here).increasing (isKernel_of_getElem? there).increasing
      fun item => ?_
    rw [wf.mem_kernel_iff (isKernel_of_getElem? here), wf.mem_kernel_iff (isKernel_of_getElem? there), same]
  subst equal
  exact Numbering.number_unique _ here there

end

end Grammar

end Lookahead
