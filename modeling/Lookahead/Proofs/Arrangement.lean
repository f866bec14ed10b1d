import Lookahead.Proofs.Canonical

set_option autoImplicit false

namespace Lookahead

namespace Numbering

variable {α : Type} [Ord α] [Std.TransOrd α] [Std.LawfulEqOrd α]

theorem toList_ofList_eq_eraseDups [DecidableEq α] (as : List α) : (ofList as).toList = as.eraseDups := by
  induction as using List.reverseRecOn with
  | nil => rfl
  | append_singleton as a ih =>
      have last : ofList (as ++ [a]) = (ofList as).add a := List.foldl_append
      rw [last, List.eraseDups_append]
      by_cases known : a ∈ as
      · rw [toList_add_of_mem _ _ (mem_ofList.mpr known), ih]
        simp [List.removeAll, known]
      · rw [toList_add_of_not_mem _ _ fun member => known (mem_ofList.mp member), ih]
        simp [List.removeAll, known, List.eraseDups_cons]

end Numbering

structure State.Arranged (g : Grammar) (state : State) : Prop where
  distinct : state.items.toList.Nodup
  kernelSize : state.kernelSize ≤ state.items.size
  -- By production, and then by position.
  increasing : Item.Increasing state.kernel
  opened : ∀ i item, state.kernelSize ≤ i → state.items[i]? = some item → item.position = 0
  edges : state.edges.map Edge.symbol = (state.items.toList.filterMap g.moveSymbol?).eraseDups

structure Edge.Matches (g : Grammar) (source : State) (edge : Edge) (target : State) : Prop where
  distinct : (edge.moves.map Prod.fst).Nodup
  sources : ∀ i, i ∈ edge.moves.map Prod.fst ↔
    ∃ item, source.items[i]? = some item ∧ g.symbolAfterDot? item = some edge.symbol
  targets : edge.moves.map Prod.snd = List.range target.kernelSize
  advanced : ∀ i j, (i, j) ∈ edge.moves →
    ∃ item, source.items[i]? = some item ∧ target.items[j]? = some ⟨item.production, item.position + 1⟩

namespace Grammar

variable {g : Grammar} {a : Automaton}

theorem kernel_state (closures : Array (List Item)) (numbers : Numbering (List Item)) {kernel : List Item}
    (distinct : kernel.Nodup) : (g.state closures numbers kernel).kernel = kernel :=
  (List.prefix_iff_eq_take.mp (prefix_stateItems closures distinct)).symm

theorem edge?_of_mem {state : State} (distinct : (state.edges.map Edge.symbol).Nodup) {edge : Edge}
    (member : edge ∈ state.edges) : state.edge? edge.symbol = some edge := by
  cases found : state.edge? edge.symbol with
  | none => exact absurd (by simp) (List.find?_eq_none.mp found edge member)
  | some other =>
      have test := List.find?_some found
      have same : other = edge :=
        List.inj_on_of_nodup_map distinct (List.mem_of_find?_eq_some found) member (of_decide_eq_true test)
      rw [same]

theorem shifts_symbols (items : List Item) :
    (g.shifts items).map Shift.symbol = (items.filterMap g.moveSymbol?).eraseDups := by
  have mentioned : (items.zipIdx.filterMap fun entry => (g.moveSymbol? entry.1).map fun x => (x, entry.2, entry.1.advance)).map
      Prod.fst = items.filterMap g.moveSymbol? := by
    have firsts := congrArg (List.filterMap g.moveSymbol?) (List.zipIdx_map_fst 0 items)
    rw [List.filterMap_map] at firsts
    rw [List.map_filterMap, ← firsts]
    simp [Function.comp_def]
  rw [shifts, List.map_map, mentioned]
  simp only [Function.comp_def, List.map_id']
  exact Numbering.toList_ofList_eq_eraseDups _

theorem sources_nodup {items : List Item} (distinct : items.Nodup) {shift : Shift} (among : shift ∈ g.shifts items) :
    (shift.moved.map Prod.fst).Nodup := by
  have apart := List.pairwise_map.mp (kernel_increasing distinct among).nodup
  refine List.pairwise_map.mpr (apart.imp_of_mem fun {b c} first second different same => different ?_)
  obtain ⟨item, here, -, left⟩ := (mem_shifts among b.1 b.2).mp first
  obtain ⟨other, there, -, right⟩ := (mem_shifts among c.1 c.2).mp second
  rw [same, there, Option.some.injEq] at here
  rw [left, right, here]

section

variable (returned : g.automaton = .ok a)
include returned

theorem map_edges {β : Type} {f : Edge → β} {h : Shift → β} {s : Nat} {kernel : List Item}
    (here : (g.kernels g.closures).values[s]? = some kernel)
    (agree : ∀ shift ∈ g.shifts (g.stateItems g.closures kernel), ∀ target,
      (g.kernels g.closures).number? shift.kernel = some target →
        f ⟨shift.symbol, target, (shift.moved.map Prod.fst).zipIdx⟩ = h shift) :
    (g.state g.closures (g.kernels g.closures) kernel).edges.map f = (g.shifts (g.stateItems g.closures kernel)).map h := by
  simp only [state, List.map_filterMap, Option.map_map, Function.comp_def]
  rw [← List.filterMap_eq_map (f := h)]
  refine List.filterMap_congr fun shift among => ?_
  obtain ⟨target, number⟩ := number_of_shift returned here among
  simp only [number, Option.map_some, agree shift among target number, Function.comp_apply]

theorem edges_symbols {s : Nat} {kernel : List Item} (here : (g.kernels g.closures).values[s]? = some kernel) :
    (g.state g.closures (g.kernels g.closures) kernel).edges.map Edge.symbol =
      (g.shifts (g.stateItems g.closures kernel)).map Shift.symbol :=
  map_edges returned here fun _ _ _ _ => rfl

theorem state_arranged (wf : g.WellFormed) {s : Nat} {kernel : List Item}
    (here : (g.kernels g.closures).values[s]? = some kernel) :
    (g.state g.closures (g.kernels g.closures) kernel).Arranged g := by
  have isKernel := isKernel_of_getElem? here
  have front := prefix_stateItems (g := g) g.closures isKernel.increasing.nodup
  have distinct : (g.stateItems g.closures kernel).Nodup := Numbering.nodup_toList _
  refine ⟨distinct, front.length_le, ?_, fun i item behind found => ?_, ?_⟩
  · rw [kernel_state _ _ isKernel.increasing.nodup]
    exact isKernel.increasing
  · have at' : (g.stateItems g.closures kernel)[i]? = some item := by simpa [state] using found
    cases wf.kernel_or_opened (List.mem_of_getElem? at') with
    | inl member =>
        -- The items behind the kernel are none of the kernel.
        obtain ⟨rest, split⟩ := front
        have inRest : item ∈ rest := by
          rw [← split, List.getElem?_append_right behind] at at'
          exact List.mem_of_getElem? at'
        rw [← split] at distinct
        exact absurd rfl ((List.nodup_append.mp distinct).2.2 item member item inRest)
    | inr opened =>
        obtain ⟨k, step⟩ := opened
        exact step.position
  · rw [edges_symbols returned here, shifts_symbols]
    rfl

theorem edge_matches {s : Nat} {x : Symbol} {edge : Edge} (taken : a.edge s x = .ok edge) :
    ∃ source target, a.state s = .ok source ∧ a.state edge.target = .ok target ∧ edge.symbol = x ∧
      edge ∈ source.edges ∧ edge.Matches g source target := by
  obtain ⟨kernel, shift, here, among, same, there, moves⟩ := shift_of_edge returned taken
  obtain ⟨source, found, listed⟩ := Automaton.edge_eq_ok_iff.mp taken
  have member : edge ∈ source.edges := List.mem_of_find?_eq_some listed
  have test := List.find?_some listed
  have symbol : edge.symbol = x := of_decide_eq_true test
  have source_eq : source = g.state g.closures (g.kernels g.closures) kernel := by
    obtain ⟨_, here', state⟩ := (getElem?_states_iff returned).mp found
    rw [here, Option.some.injEq] at here'
    exact here' ▸ state
  have target := (getElem?_states_iff returned).mpr ⟨shift.kernel, there, rfl⟩
  have firsts : edge.moves.map Prod.fst = shift.moved.map Prod.fst := by
    rw [moves, List.zipIdx_map_fst]
  refine ⟨source, _, Automaton.state_eq_ok_iff.mpr found, Automaton.state_eq_ok_iff.mpr target, symbol, member, ?_, fun i => ?_,
    ?_, fun i j moved => ?_⟩
  · rw [firsts]
    exact sources_nodup (Numbering.nodup_toList _) among
  · rw [firsts, List.mem_map, source_eq, symbol, ← same]
    constructor
    · intro moved
      obtain ⟨⟨_, dest⟩, member, first⟩ := moved
      obtain rfl : _ = i := first
      obtain ⟨item, at', move, -⟩ := (mem_shifts among _ dest).mp member
      exact ⟨item, by simpa [state] using at', (moveSymbol?_eq_some_iff.mp move).1⟩
    · intro mentioned
      obtain ⟨item, at', after⟩ := mentioned
      have inner : shift.symbol ≠ .terminal .endOfInput := by
        obtain ⟨_, -, move⟩ := exists_shift_iff.mp ⟨shift, among, rfl⟩
        exact (moveSymbol?_eq_some_iff.mp move).2
      exact ⟨(i, item.advance), (mem_shifts among i _).mpr
        ⟨item, by simpa [state] using at', moveSymbol?_eq_some_iff.mpr ⟨after, inner⟩, rfl⟩, rfl⟩
  · rw [moves, List.zipIdx_map_snd, ← List.range_eq_range']
    simp [state, Shift.kernel]
  · obtain ⟨item, atI, -, atJ⟩ := move_sound returned taken moved
    obtain ⟨_, found', atI'⟩ := Automaton.item_eq_ok_iff.mp atI
    obtain ⟨_, target', atJ'⟩ := Automaton.item_eq_ok_iff.mp atJ
    rw [found, Option.some.injEq] at found'
    rw [target, Option.some.injEq] at target'
    subst found' target'
    exact ⟨item, atI', atJ'⟩

end

theorem automaton_arranged (accepted : g.Accepted) (returned : g.automaton = .ok a) :
    (∀ s state, a.state s = .ok state → state.Arranged g ∧
      (s = 0 → state.kernel = [.start]) ∧ (s ≠ 0 → ∀ item ∈ state.kernel, 1 ≤ item.position) ∧
      ∀ edge ∈ state.edges, a.transition s edge.symbol = .ok edge.target ∧ a.moves s edge.symbol = .ok edge.moves) ∧
    ∀ s x t moves, a.transition s x = .ok t → a.moves s x = .ok moves → t ≠ 0 ∧
      ∃ source target, a.state s = .ok source ∧ a.state t = .ok target ∧ ⟨x, t, moves⟩ ∈ source.edges ∧
        Edge.Matches g source ⟨x, t, moves⟩ target := by
  have wf := accepted.wellFormed
  refine ⟨fun s state found => ?_, fun s x t moves step listed => ?_⟩
  · have found' := Automaton.state_eq_ok_iff.mp found
    obtain ⟨kernel, here, rfl⟩ := (getElem?_states_iff returned).mp found'
    have arranged := state_arranged returned wf here
    have isKernel := isKernel_of_getElem? here
    rw [kernel_state _ _ isKernel.increasing.nodup]
    refine ⟨arranged, fun start => ?_, fun other => ?_, fun edge member => ?_⟩
    · rw [start, kernel_start, Option.some.injEq] at here
      exact here.symm
    · refine isKernel.moved.resolve_left fun start => other ?_
      exact Numbering.number_unique _ here (start ▸ kernel_start)
    · have symbols : ((g.state g.closures (g.kernels g.closures) kernel).edges.map Edge.symbol).Nodup := by
        rw [arranged.edges, ← Numbering.toList_ofList_eq_eraseDups]
        exact Numbering.nodup_toList _
      have taken : a.edge s edge.symbol = .ok edge :=
        Automaton.edge_eq_ok_iff.mpr ⟨_, found', edge?_of_mem symbols member⟩
      exact ⟨Automaton.transition_eq_ok_iff.mpr ⟨edge, taken, rfl⟩, Automaton.moves_eq_ok_iff.mpr ⟨edge, taken, rfl⟩⟩
  · obtain ⟨edge, taken, rfl⟩ := Automaton.transition_eq_ok_iff.mp step
    obtain ⟨edge', taken', rfl⟩ := Automaton.moves_eq_ok_iff.mp listed
    rw [taken, Except.ok.injEq] at taken'
    subst taken'
    obtain ⟨source, target, atS, atT, rfl, member, matching⟩ := edge_matches returned taken
    refine ⟨fun start => ?_, source, target, atS, atT, member, matching⟩
    -- The kernel of the start state has not been moved to.
    obtain ⟨_, shift, -, among, -, there, -⟩ := shift_of_edge returned taken
    rw [start, kernel_start, Option.some.injEq] at there
    obtain ⟨item, -, -, moved⟩ :=
      (mem_kernel_of_mem_shifts among .start).mp (there ▸ List.mem_singleton_self Item.start)
    exact absurd (congrArg Item.position moved) (Nat.succ_ne_zero item.position).symm

theorem automaton_arranged_composed : composed.Accepted ∧ ∃ a, composed.automaton = .ok a ∧
    ∃ s t moves source target, a.follow 0 [Example.n 1, Example.t 1, Example.t 2, Example.t 3, Example.t 5] = .ok s ∧
      a.transition s (Example.n 5) = .ok t ∧ a.moves s (Example.n 5) = .ok moves ∧ t ≠ 0 ∧
      a.state s = .ok source ∧ a.state t = .ok target ∧ source.Arranged composed ∧ target.Arranged composed ∧
      Edge.Matches composed source ⟨Example.n 5, t, moves⟩ target := by
  obtain ⟨a, returned⟩ : ∃ a, composed.automaton = .ok a := exists_of_isOk (by decide +kernel)
  have walked : (composed.automaton.bind fun a => do
      let s ← a.follow 0 [Example.n 1, Example.t 1, Example.t 2, Example.t 3, Example.t 5]
      let t ← a.transition s (Example.n 5)
      let moves ← a.moves s (Example.n 5)
      return (s, t, moves)).isOk = true := by decide +kernel
  rw [returned] at walked
  obtain ⟨_, ran⟩ := exists_of_isOk walked
  obtain ⟨_, same, ran⟩ := bind_eq_ok_iff.mp ran
  cases same
  obtain ⟨s, path, ran⟩ := bind_eq_ok_iff.mp ran
  obtain ⟨t, step, ran⟩ := bind_eq_ok_iff.mp ran
  obtain ⟨moves, listed, -⟩ := bind_eq_ok_iff.mp ran
  obtain ⟨arranged, matched⟩ := automaton_arranged composed_accepted returned
  obtain ⟨other, source, target, atS, atT, -, matching⟩ := matched s _ t moves step listed
  exact ⟨composed_accepted, a, returned, s, t, moves, source, target, path, step, listed, other, atS, atT,
    (arranged s source atS).1, (arranged t target atT).1, matching⟩

end Grammar

end Lookahead
