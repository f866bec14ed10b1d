import Lookahead.Proofs.Table
import Lookahead.Table.Text

set_option autoImplicit false

namespace Lookahead

structure Automaton.Fits (g : Grammar) (a : Automaton) : Prop where
  start : a.item 0 0 = .ok .start
  item : ∀ s i item, a.item s i = .ok item → ∃ p, g.production item.production = .ok p ∧ item.position ≤ p.right.size ∧
    ∀ x ∈ p.right, (∃ first, g.context.first x = .ok first) ∧ ∃ null, g.context.isNullable x = .ok null
  shift : ∀ s i item x, a.item s i = .ok item → g.moveSymbol? item = some x →
    ∃ t moves j, a.transition s x = .ok t ∧ a.moves s x = .ok moves ∧ (i, j) ∈ moves
  move : ∀ s x t moves, a.transition s x = .ok t → a.moves s x = .ok moves → ∀ i j, (i, j) ∈ moves →
    (t, j) ≠ (s, i) ∧ ∃ item, a.item s i = .ok item ∧ g.moveSymbol? item = some x ∧ a.item t j = .ok item.advance

structure Board.Fits (a : Automaton) (b : Board) : Prop where
  rows : b.rows.size = a.size
  marks : b.marks.size = a.size
  cells : ∀ s i, i < (b.row s).cells.size ↔ ∃ item, a.item s i = .ok item
  marked : ∀ s, ∀ i ∈ b.marked s, ∃ item, a.item s i = .ok item

structure Table.Fits (g : Grammar) (a : Automaton) (table : Table) : Prop where
  states : table.states.size = a.size
  items : ∀ s state, a.state s = .ok state →
    ∃ annotation, table.annotation s = .ok annotation ∧ annotation.lookaheads.size = state.items.size
  lookahead : ∀ s i item, a.item s i = .ok item →
    ∃ set, table.lookahead s i = .ok set ∧ ∀ t ∈ set, t.index < g.terminals.size
  layout : ∀ s state, a.state s = .ok state → ∃ set, table.layout s = .ok set ∧ ∀ l ∈ set, l.index < g.layouts.size

namespace Grammar

variable {g : Grammar} {a : Automaton}

theorem text_of_parts {α β γ : Type} {f : α → Except Fault β} {parts : List α} {join : List β → γ}
    (answered : ∀ x ∈ parts, ∃ y, f x = .ok y) : ∃ text, (parts.mapM f >>= fun texts => .ok (join texts)) = .ok text := by
  obtain ⟨texts, ran, -⟩ := mapM_eq_ok f parts answered
  exact ⟨_, bind_eq_ok_iff.mpr ⟨texts, ran, rfl⟩⟩

theorem symbolName_of_knows {x : Symbol} (known : g.Knows x) : ∃ name, g.symbolName x = .ok name := by
  cases x with
  | terminal t => exact ⟨_, by rw [symbolName, terminalName, Array.getElem?_eq_getElem known]⟩
  | nonterminal n => exact ⟨_, by rw [symbolName, nonterminalName, Array.getElem?_eq_getElem known]⟩

theorem terminalSetText_of_bound {set : TerminalSet} (known : ∀ t ∈ set, t.index < g.terminals.size) :
    ∃ text, g.terminalSetText set = .ok text :=
  text_of_parts fun t member => symbolName_of_knows (x := .terminal t) (known t (BitSet.mem_toList.mp member))

theorem layoutSetText_of_bound {set : LayoutSet} (known : ∀ l ∈ set, l.index < g.layouts.size) :
    ∃ text, g.layoutSetText set = .ok text :=
  text_of_parts fun l member => ⟨_, by rw [layoutName, Array.getElem?_eq_getElem (known l (BitSet.mem_toList.mp member))]⟩

theorem knows_of_moveSymbol? (wf : g.WellFormed) {item : Item} {x : Symbol} (move : g.moveSymbol? item = some x) :
    g.Knows x := by
  obtain ⟨p, found, at'⟩ := Option.bind_eq_some_iff.mp (moveSymbol?_eq_some_iff.mp move).1
  exact wf.knows_right found (Array.mem_of_getElem? at')

section

variable (returned : g.automaton = .ok a)
include returned

theorem move_of_edge {s : Nat} {state : State} {edge : Edge} (found : a.states[s]? = some state) (member : edge ∈ state.edges) :
    ∃ item ∈ state.items, g.moveSymbol? item = some edge.symbol := by
  obtain ⟨kernel, -, rfl⟩ := (getElem?_states_iff returned).mp found
  simp only [state, List.mem_filterMap, Option.map_eq_some_iff] at member
  obtain ⟨shift, among, target, -, rfl⟩ := member
  obtain ⟨item, inside, move⟩ := exists_shift_iff.mp ⟨shift, among, rfl⟩
  exact ⟨item, by simpa [state] using inside, move⟩

-- The dot has moved on where a move ends, so that it is not where it was.
theorem move_ne {s i j : Nat} {x : Symbol} {edge : Edge} (taken : a.edge s x = .ok edge) (moved : (i, j) ∈ edge.moves) :
    (edge.target, j) ≠ (s, i) := by
  intro same
  obtain ⟨rfl, rfl⟩ := Prod.mk.inj same
  obtain ⟨item, at', -, there⟩ := move_sound returned taken moved
  rw [at', Except.ok.injEq] at there
  exact absurd (congrArg Item.position there) (Nat.succ_ne_self item.position).symm

variable (wf : g.WellFormed)
include wf

theorem automaton_fits : a.Fits g where
  start := item_start returned
  item s i item at' := by
    obtain ⟨p, found, bound⟩ := item_places returned wf at'
    refine ⟨p, production_eq_ok_iff.mpr found, bound, fun x member => ?_⟩
    obtain ⟨first, answer, -⟩ := Context.first_exact wf (wf.knows_right found member)
    obtain ⟨null, answer', -⟩ := Context.isNullable_exact (wf.knows_right found member)
    exact ⟨⟨first, answer⟩, null, answer'⟩
  shift s i item x at' move := by
    obtain ⟨edge, taken⟩ := edge_exists returned at' move
    obtain ⟨j, moved⟩ := move_exists returned at' move taken
    exact ⟨edge.target, edge.moves, j, Automaton.transition_eq_ok_iff.mpr ⟨edge, taken, rfl⟩,
      Automaton.moves_eq_ok_iff.mpr ⟨edge, taken, rfl⟩, moved⟩
  move s x t moves step listed i j member := by
    obtain ⟨edge, taken, rfl⟩ := Automaton.transition_eq_ok_iff.mp step
    obtain ⟨edge', taken', rfl⟩ := Automaton.moves_eq_ok_iff.mp listed
    rw [taken, Except.ok.injEq] at taken'
    subst taken'
    exact ⟨move_ne returned taken member, move_sound returned taken member⟩

theorem item_text {s i : Nat} {item : Item} (at' : a.item s i = .ok item) : ∃ text, item.text g = .ok text := by
  obtain ⟨p, found, -⟩ := item_places returned wf at'
  obtain ⟨left, named⟩ := symbolName_of_knows (wf.knows_left found)
  obtain ⟨right, ran, -⟩ := mapM_eq_ok g.symbolName p.right.toList fun x member =>
    symbolName_of_knows (wf.knows_right found (Array.mem_toList_iff.mp member))
  exact ⟨_, bind_eq_ok_iff.mpr ⟨p, production_eq_ok_iff.mpr found,
    bind_eq_ok_iff.mpr ⟨left, named, bind_eq_ok_iff.mpr ⟨right, ran, rfl⟩⟩⟩⟩

theorem state_text {s : Nat} {state : State} (found : a.states[s]? = some state) : ∃ text, state.text g = .ok text := by
  obtain ⟨items, listed, -⟩ := mapM_eq_ok (State.itemLine g state.kernelSize) state.items.toList.zipIdx fun entry member => by
    obtain ⟨item, i⟩ := entry
    have atI : state.items[i]? = some item := by simpa using List.mk_mem_zipIdx_iff_getElem?.mp member
    obtain ⟨text, ran⟩ := item_text returned wf (Automaton.item_eq_ok_iff.mpr ⟨state, found, atI⟩)
    exact ⟨_, bind_eq_ok_iff.mpr ⟨text, ran, rfl⟩⟩
  obtain ⟨edges, listed', -⟩ := mapM_eq_ok (State.edgeLine g) state.edges fun edge member => by
    obtain ⟨item, -, move⟩ := move_of_edge returned found member
    obtain ⟨name, ran⟩ := symbolName_of_knows (knows_of_moveSymbol? wf move)
    exact ⟨_, bind_eq_ok_iff.mpr ⟨name, ran, rfl⟩⟩
  exact ⟨_, bind_eq_ok_iff.mpr ⟨items, listed, bind_eq_ok_iff.mpr ⟨edges, listed', rfl⟩⟩⟩

theorem automaton_text : ∃ text, a.text g = .ok text := by
  unfold Automaton.text
  refine text_of_parts fun entry member => ?_
  obtain ⟨state, s⟩ := entry
  obtain ⟨text, ran⟩ := state_text returned wf (s := s) (by simpa using List.mk_mem_zipIdx_iff_getElem?.mp member)
  exact ⟨_, bind_eq_ok_iff.mpr ⟨text, ran, rfl⟩⟩

theorem table_text {table : Table} (fits : table.Fits g a) : ∃ text, table.text g a = .ok text := by
  unfold Table.text
  refine text_of_parts fun entry member => ?_
  obtain ⟨state, s⟩ := entry
  have found : a.states[s]? = some state := by simpa using List.mk_mem_zipIdx_iff_getElem?.mp member
  obtain ⟨layout, answer, known⟩ := fits.layout s state (Automaton.state_eq_ok_iff.mpr found)
  obtain ⟨layoutText, ran⟩ := layoutSetText_of_bound known
  obtain ⟨items, listed, -⟩ := mapM_eq_ok (table.itemLine g s) state.items.toList.zipIdx fun entry among => by
    obtain ⟨item, i⟩ := entry
    have atI : state.items[i]? = some item := by simpa using List.mk_mem_zipIdx_iff_getElem?.mp among
    have at' : a.item s i = .ok item := Automaton.item_eq_ok_iff.mpr ⟨state, found, atI⟩
    obtain ⟨text, ran⟩ := item_text returned wf at'
    obtain ⟨set, answer, known⟩ := fits.lookahead s i item at'
    obtain ⟨setText, ran'⟩ := terminalSetText_of_bound known
    exact ⟨_, bind_eq_ok_iff.mpr ⟨text, ran, bind_eq_ok_iff.mpr ⟨set, answer, bind_eq_ok_iff.mpr ⟨setText, ran', rfl⟩⟩⟩⟩
  exact ⟨_, bind_eq_ok_iff.mpr ⟨layout, answer, bind_eq_ok_iff.mpr ⟨layoutText, ran, bind_eq_ok_iff.mpr ⟨items, listed, rfl⟩⟩⟩⟩

theorem board_fits {b : Board} (path : Relation.ReflTransGen
    (fun b b' => Board.wave (Network.of g g.context a) b = .ok b') (Board.initial g a) b) : b.Fits a := by
  have closed : g.Closed a (g.least a) := isLeast_least.1
  have kept : Board.Sound a (g.least a) b ∧ ∀ s k, Active b.facts s k → k ∈ b.marked s ∨ Board.Served g a b s k := by
    induction path with
    | refl =>
        exact ⟨Board.sound_initial returned closed, fun s k active =>
          .inl ((Board.mem_marked_initial returned).mpr (Board.active_initial returned active))⟩
    | tail _ step ih =>
        obtain ⟨b', ran, -, wave⟩ :=
          Board.wave_wave wf returned closed (fun s i x => wf.mem_traits_of_least) ih.1 ih.2
        rw [step, Except.ok.injEq] at ran
        subst ran
        exact ⟨wave.sound, wave.done⟩
  exact ⟨kept.1.rows, kept.1.marks, kept.1.cells, fun s i member => (kept.1.ready s i member).1⟩

theorem table_fits {b : Board} (ran : (Board.initial g a).spread (Network.of g g.context a)
      (waveLimit (Network.of g g.context a) (Board.initial g a)) = .ok b) (rows : b.rows.size = a.states.size)
    (cells : ∀ s i, i < (b.row s).cells.size ↔ ∃ item, a.item s i = .ok item) :
    Table.Fits g a ⟨b.rows.map Row.annotation, a.maxItemCount⟩ := by
  obtain ⟨table, ran', lookahead, layout⟩ := table_exact wf returned
  rw [table_of_spread returned ran, Except.ok.injEq] at ran'
  subst ran'
  refine ⟨Array.size_map.trans rows, fun s state found => ?_, fun s i item at' => ?_, fun s state found => ?_⟩
  · have found' := Automaton.state_eq_ok_iff.mp found
    have bound : s < b.rows.size := rows ▸ (Array.getElem?_eq_some_iff.mp found').1
    refine ⟨ Row.annotation (b.row s), ?_, ?_⟩
    · simp only [Table.annotation, Array.getElem?_map, Board.row, Array.getD_eq_getD_getElem?, Array.getElem?_eq_getElem bound,
        Option.map_some, Option.getD_some]
    · have size : ∀ i, i < (b.row s).cells.size ↔ i < state.items.size := fun i => by
        rw [cells]
        simp [Automaton.item_eq_ok_iff, found', Array.getElem?_eq_some_iff]
      rw [Row.annotation, Array.size_map]
      exact Nat.le_antisymm (Nat.le_of_not_lt fun less => Nat.lt_irrefl _ ((size _).mp less))
        (Nat.le_of_not_lt fun less => Nat.lt_irrefl _ ((size _).mpr less))
  · obtain ⟨set, answer, members⟩ := lookahead s i item at'
    exact ⟨set, answer, fun t member => lookahead_mem_traits.mp (wf.mem_traits_of_least ((members t).mp member))⟩
  · obtain ⟨set, answer, members⟩ := layout s state found
    exact ⟨set, answer, fun l member => wf.knows_layout_of_least ((members l).mp member)⟩

end

theorem table_total (accepted : g.Accepted) (returned : g.automaton = .ok a) : a.Fits g ∧
    (∀ b, Relation.ReflTransGen (fun b b' => Board.wave (Network.of g g.context a) b = .ok b') (Board.initial g a) b →
      b.Fits a) ∧
    ∃ b table, Board.Converges (Network.of g g.context a) (Board.initial g a) b ∧ a.table g g.context = .ok table ∧
      table.states = b.rows.map Row.annotation ∧ table.Fits g a ∧ (∃ text, a.text g = .ok text) ∧
      ∃ text, table.text g a = .ok text := by
  have wf := accepted.wellFormed
  obtain ⟨b, ran, converges, rows, cells, -⟩ := spread_exact wf returned
  have fits := table_fits returned wf ran rows cells
  exact ⟨automaton_fits returned wf, fun b path => board_fits returned wf path, b, _, converges, table_of_spread returned ran,
    rfl, fits, automaton_text returned wf, table_text returned wf fits⟩

theorem table_total_composed : composed.Accepted ∧ ∃ a b table text, composed.automaton = .ok a ∧
    Board.Converges (Network.of composed composed.context a) (Board.initial composed a) b ∧
      a.table composed composed.context = .ok table ∧ table.states = b.rows.map Row.annotation ∧
      table.Fits composed a ∧ table.text composed a = .ok text := by
  obtain ⟨a, returned⟩ : ∃ a, composed.automaton = .ok a := exists_of_isOk (by decide +kernel)
  obtain ⟨-, -, b, table, converges, ran, same, fits, -, text, shown⟩ := table_total composed_accepted returned
  exact ⟨composed_accepted, a, b, table, text, returned, converges, ran, same, fits, shown⟩

end Grammar

end Lookahead
