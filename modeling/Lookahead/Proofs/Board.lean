import Lookahead.Proofs.Row

set_option autoImplicit false

namespace Lookahead

namespace Board

def marked (b : Board) (s : Nat) : BitSet Nat := b.marks.getD s ∅

def facts (b : Board) : Set Fact := {fact |
  match fact with
  | .item s i x => x ∈ (b.row s).cell i
  | .state s l => l ∈ (b.row s).layout}

structure Grows (b b' : Board) : Prop where
  rows : b'.rows.size = b.rows.size
  marks : b'.marks.size = b.marks.size
  row : ∀ s, Row.Grows (b.row s) (b'.row s)

theorem Grows.refl (b : Board) : Grows b b := ⟨rfl, rfl, fun _ => .refl _⟩

theorem Grows.trans {b b' b'' : Board} (first : Grows b b') (second : Grows b' b'') : Grows b b'' :=
  ⟨second.rows.trans first.rows, second.marks.trans first.marks, fun s => (first.row s).trans (second.row s)⟩

structure Advances (b b' : Board) : Prop where
  grows : Grows b b'
  marks : ∀ s, ∀ i ∈ b.marked s, i ∈ b'.marked s
  kept : ∀ s i, i ∈ b'.marked s ∨ (b'.row s).cell i = (b.row s).cell i

theorem Advances.refl (b : Board) : Advances b b := ⟨.refl b, fun _ _ => id, fun _ _ => .inr rfl⟩

theorem Advances.trans {b b' b'' : Board} (first : Advances b b') (second : Advances b' b'') : Advances b b'' where
  grows := first.grows.trans second.grows
  marks s i member := second.marks s i (first.marks s i member)
  kept s i := by
    rcases second.kept s i with marked | same
    · exact .inl marked
    · exact (first.kept s i).imp (second.marks s i) same.trans

-- A board of the right shape that holds nothing, and marks nothing, without support by a family.
structure Sound (a : Automaton) (F : Set Fact) (b : Board) : Prop where
  rows : b.rows.size = a.states.size
  marks : b.marks.size = a.states.size
  cells : ∀ s i, i < (b.row s).cells.size ↔ ∃ item, a.item s i = .ok item
  under : ∀ s, Row.Under F s (b.row s)
  ready : ∀ s, ∀ i ∈ b.marked s, (∃ item, a.item s i = .ok item) ∧ Grammar.Active F s i

structure Step (a : Automaton) (F : Set Fact) (b b' : Board) : Prop where
  advances : Advances b b'
  sound : Sound a F b'
  fresh : ∀ s, ∀ i ∈ b'.marked s, i ∈ b.marked s ∨ Row.Fresh (b.row s) (b'.row s) i

theorem Step.refl {a : Automaton} {F : Set Fact} {b : Board} (sound : Sound a F b) : Step a F b b :=
  ⟨.refl b, sound, fun _ _ => .inl⟩

theorem Step.trans {a : Automaton} {F : Set Fact} {b b' b'' : Board} (first : Step a F b b')
    (second : Step a F b' b'') : Step a F b b'' where
  advances := first.advances.trans second.advances
  sound := second.sound
  fresh s i member := by
    rcases second.fresh s i member with old | fresh
    · exact (first.fresh s i old).imp_right fun fresh => fresh.later (second.advances.grows.row s)
    · exact .inr (fresh.earlier (first.advances.grows.row s))

theorem row_modify (b : Board) (marks : Array (BitSet Nat)) (t : Nat) (f : Row → Row) (u : Nat) :
    (⟨b.rows.modify t f, marks⟩ : Board).row u = if u = t ∧ t < b.rows.size then f (b.row u) else b.row u := by
  unfold row
  rw [Array.getD_eq_getD_getElem?, Array.getD_eq_getD_getElem?, Array.getElem?_modify]
  by_cases same : t = u
  · subst same
    by_cases inside : t < b.rows.size <;> simp [inside]
  · simp [same, Ne.symm same]

def place (b : Board) (s : Nat) (row : Row) : Board := ⟨b.rows.modify s fun _ => row, b.marks⟩

section

variable {b : Board} {s : Nat} (inside : s < b.rows.size) {row : Row}
include inside

theorem row_place (u : Nat) : (b.place s row).row u = if u = s then row else b.row u := by
  rw [place, row_modify]
  simp [inside]

theorem grows_place (grows : Row.Grows (b.row s) row) : Grows b (b.place s row) := by
  refine ⟨by simp [place], rfl, fun u => ?_⟩
  rw [row_place inside]
  by_cases here : u = s
  · rw [if_pos here, here]
    exact grows
  · rw [if_neg here]
    exact .refl _

theorem sound_place {a : Automaton} {F : Set Fact} (sound : Sound a F b) (grows : Row.Grows (b.row s) row)
    (under : Row.Under F s row) : Sound a F (b.place s row) := by
  have grows' := grows_place inside grows
  refine ⟨grows'.rows.trans sound.rows, sound.marks, fun u k => ?_, fun u => ?_, sound.ready⟩
  · rw [(grows'.row u).size]
    exact sound.cells u k
  · rw [row_place inside]
    by_cases here : u = s
    · rw [if_pos here, here]
      exact under
    · rw [if_neg here]
      exact sound.under u

end

theorem mem_marked_insert (b : Board) (rows : Array Row) {t j u k : Nat} (inside : t < b.marks.size) :
    k ∈ (⟨rows, b.marks.modify t (·.insert j)⟩ : Board).marked u ↔ k ∈ b.marked u ∨ u = t ∧ k = j := by
  unfold marked
  rw [Array.getD_eq_getD_getElem?, Array.getD_eq_getD_getElem?, Array.getElem?_modify]
  by_cases same : t = u
  · subst same
    simp [inside]
  · simp [same, Ne.symm same]

theorem mem_cell_carry {b : Board} {s i t j u k : Nat} {layout : LayoutSet} (inside : t < b.rows.size) {x : Trait} :
    x ∈ ((b.carry s i t j layout).row u).cell k ↔
      x ∈ (b.row u).cell k ∨ (u = t ∧ k = j ∧ j < (b.row t).cells.size) ∧ x ∈ (b.row s).cell i := by
  unfold carry
  rw [row_modify]
  by_cases here : u = t ∧ t < b.rows.size
  · rw [if_pos here]
    obtain ⟨rfl, -⟩ := here
    change x ∈ ((b.row u).merge j ((b.row s).cell i)).cell k ↔ _
    rw [Row.mem_cell_merge]
    simp
  · rw [if_neg here]
    have other : u ≠ t := fun same => here ⟨same, inside⟩
    simp [other]

theorem mem_layout_carry {b : Board} {s i t j u : Nat} {layout : LayoutSet} (inside : t < b.rows.size) {l : Layout} :
    l ∈ ((b.carry s i t j layout).row u).layout ↔ l ∈ (b.row u).layout ∨ u = t ∧ l ∈ layout := by
  unfold carry
  rw [row_modify]
  by_cases here : u = t ∧ t < b.rows.size
  · rw [if_pos here]
    obtain ⟨rfl, -⟩ := here
    change l ∈ ((b.row u).layout ∪ layout) ↔ _
    simp
  · rw [if_neg here]
    have other : u ≠ t := fun same => here ⟨same, inside⟩
    simp [other]

theorem size_carry {b : Board} {s i t j u : Nat} {layout : LayoutSet} :
    ((b.carry s i t j layout).row u).cells.size = (b.row u).cells.size := by
  unfold carry
  rw [row_modify]
  split
  · rename_i here
    rw [here.1]
    exact Row.size_merge _ _ _
  · rfl

theorem mem_marked_carry {b : Board} {s i t j u k : Nat} {layout : LayoutSet} (inside : t < b.marks.size) :
    k ∈ (b.carry s i t j layout).marked u ↔
      k ∈ b.marked u ∨ (u = t ∧ k = j) ∧ ¬ (b.row s).cell i ⊆ (b.row t).cell j := by
  unfold carry
  simp only
  split
  · rename_i grows
    rw [mem_marked_insert b _ inside]
    simp [grows]
  · rename_i held
    simp [held, marked]

theorem advances_carry {b : Board} {s i t j : Nat} (layout : LayoutSet) (row : t < b.rows.size)
    (mark : t < b.marks.size) : Advances b (b.carry s i t j layout) where
  grows := by
    refine ⟨by simp [carry], by simp only [carry]; split <;> simp, fun u => ⟨size_carry, ?_, ?_⟩⟩
    · exact fun k x member => (mem_cell_carry row).mpr (.inl member)
    · exact fun l member => (mem_layout_carry row).mpr (.inl member)
  marks u k member := (mem_marked_carry mark).mpr (.inl member)
  kept u k := by
    by_cases here : u = t ∧ k = j
    · by_cases held : (b.row s).cell i ⊆ (b.row t).cell j
      · refine .inr (Cell.ext fun x => ?_)
        obtain ⟨rfl, rfl⟩ := here
        rw [mem_cell_carry row]
        exact ⟨fun member => member.elim id fun carried => Cell.subset_iff.mp held x carried.2, .inl⟩
      · exact .inl ((mem_marked_carry mark).mpr (.inr ⟨here, held⟩))
    · refine .inr (Cell.ext fun x => ?_)
      rw [mem_cell_carry row]
      exact ⟨fun member => member.elim id fun carried => absurd ⟨carried.1.1, carried.1.2.1⟩ here, .inl⟩

theorem fresh_carry {b : Board} {s i t j u k : Nat} {layout : LayoutSet} (row : t < b.rows.size) (mark : t < b.marks.size)
    (inside : j < (b.row t).cells.size) (member : k ∈ (b.carry s i t j layout).marked u) :
    k ∈ b.marked u ∨ (u = t ∧ k = j) ∧ Row.Fresh (b.row u) ((b.carry s i t j layout).row u) k := by
  refine ((mem_marked_carry mark).mp member).imp_right fun ⟨⟨here, there⟩, grows⟩ => ⟨⟨here, there⟩, ?_⟩
  subst here there
  rw [Cell.subset_iff] at grows
  push Not at grows
  obtain ⟨y, held, new⟩ := grows
  exact ⟨y, (mem_cell_carry row).mpr (.inr ⟨⟨rfl, rfl, inside⟩, held⟩), new⟩

structure Delivered (g : Grammar) (a : Automaton) (b : Board) (s i t j : Nat) : Prop where
  cell : ∀ x : Trait, x ∈ (b.row s).cell i → x ∈ (b.row t).cell j
  layout : ∀ p α β, g.Dotted a t j p α β → β ≠ [] → ∀ l ∈ p.layout, l ∈ (b.row t).layout

theorem Delivered.later {g : Grammar} {a : Automaton} {b b' : Board} {s i t j : Nat} (delivered : Delivered g a b s i t j)
    (grows : Grows b b') (same : (b'.row s).cell i = (b.row s).cell i) : Delivered g a b' s i t j where
  cell x member := (grows.row t).cell j x (delivered.cell x (same ▸ member))
  layout p α β there more l admitted := (grows.row t).layout l (delivered.layout p α β there more l admitted)

theorem Delivered.advance {g : Grammar} {a : Automaton} {b b' : Board} {s i t j : Nat} (delivered : Delivered g a b s i t j)
    (advances : Advances b b') : i ∈ b'.marked s ∨ Delivered g a b' s i t j :=
  (advances.kept s i).imp_right (delivered.later advances.grows)

theorem layoutAtDot_exact {g : Grammar} {a : Automaton} {t j : Nat} {item : Item} {p : Production} {α β : List Symbol}
    (at' : a.item t j = .ok item) (there : g.Dotted a t j p α β) :
    ∃ layout, layoutAtDot g item = .ok layout ∧ ∀ l, l ∈ layout ↔ β ≠ [] ∧ l ∈ p.layout := by
  obtain ⟨id, at'', found, split⟩ := there
  rw [at', Except.ok.injEq] at at''
  subst at''
  have length : p.right.size = α.length + β.length := by
    rw [← Array.length_toList, split, List.length_append]
  refine ⟨if α.length < p.right.size then p.layout else ∅, ?_, fun l => ?_⟩
  · simp only [layoutAtDot, Grammar.production_eq_ok_iff.mpr found, bind, Except.bind, pure, Except.pure]
  · rw [BitSet.mem_ite_empty, length]
    refine and_congr_left' ?_
    rw [← List.length_pos_iff]
    omega

section

variable {a : Automaton} {F : Set Fact} {b : Board} (sound : Sound a F b) {t j : Nat} {item : Item}
  (at' : a.item t j = .ok item)
include sound at'

theorem Sound.inside : t < b.rows.size ∧ t < b.marks.size ∧ j < (b.row t).cells.size := by
  obtain ⟨state, found, -⟩ := Automaton.item_eq_ok_iff.mp at'
  obtain ⟨bound, -⟩ := Array.getElem?_eq_some_iff.mp found
  exact ⟨sound.rows ▸ bound, sound.marks ▸ bound, (sound.cells t j).mpr ⟨item, at'⟩⟩

theorem step_carry {s i : Nat} {layout : LayoutSet} (carried : ∀ y : Trait, y ∈ (b.row s).cell i → .item t j y ∈ F)
    (admitted : ∀ l ∈ layout, .state t l ∈ F) : Step a F b (b.carry s i t j layout) := by
  obtain ⟨row, mark, inside⟩ := sound.inside at'
  have advances := advances_carry (s := s) (i := i) (j := j) layout row mark
  have under : ∀ u, Row.Under F u ((b.carry s i t j layout).row u) := fun u => by
    constructor
    · intro k y member
      rcases (mem_cell_carry row).mp member with old | ⟨⟨rfl, rfl, -⟩, new⟩
      · exact (sound.under u).cell k y old
      · exact carried y new
    · intro l member
      rcases (mem_layout_carry row).mp member with old | ⟨rfl, new⟩
      · exact (sound.under u).layout l old
      · exact admitted l new
  refine ⟨advances, ⟨advances.grows.rows.trans sound.rows, advances.grows.marks.trans sound.marks, fun u k => ?_, under,
    fun u k member => ?_⟩, fun u k member => (fresh_carry row mark inside member).imp_right And.right⟩
  · rw [size_carry]
    exact sound.cells u k
  · rcases fresh_carry row mark inside member with old | ⟨⟨rfl, rfl⟩, y, held, -⟩
    · exact sound.ready u k old
    · exact ⟨⟨item, at'⟩, .inr ⟨y, (under u).cell k y held⟩⟩

theorem delivered_carry {g : Grammar} {s i : Nat} {layout : LayoutSet} {p : Production} {α β : List Symbol}
    (there : g.Dotted a t j p α β) (exact : ∀ l, l ∈ layout ↔ β ≠ [] ∧ l ∈ p.layout) :
    i ∈ (b.carry s i t j layout).marked s ∨ Delivered g a (b.carry s i t j layout) s i t j := by
  obtain ⟨row, mark, inside⟩ := sound.inside at'
  refine ((advances_carry layout row mark).kept s i).imp_right fun same => ⟨fun y member => ?_, fun q γ δ at'' more l among => ?_⟩
  · rw [same] at member
    exact (mem_cell_carry row).mpr (.inr ⟨⟨rfl, rfl, inside⟩, member⟩)
  · obtain ⟨rfl, rfl, rfl⟩ := there.unique at''
    exact (mem_layout_carry row).mpr (.inr ⟨rfl, (exact l).mpr ⟨more, among⟩⟩)

end

section

variable {g : Grammar} {a : Automaton} {F : Set Fact} (wf : g.WellFormed) (returned : g.automaton = .ok a)
  (closed : g.Closed a F)
include wf returned closed

theorem carry_step {b : Board} (sound : Sound a F b) {s i t j : Nat} {x : Symbol} (goes : a.Goes s i x t j)
    (inner : x ≠ .terminal .endOfInput) (active : Grammar.Active F s i) :
    ∃ item layout, a.item t j = .ok item ∧ layoutAtDot g item = .ok layout ∧
      Step a F b (b.carry s i t j layout) ∧
      (i ∈ (b.carry s i t j layout).marked s ∨ Delivered g a (b.carry s i t j layout) s i t j) := by
  have passed : ∀ fact, g.Passes a F s i fact → fact ∈ F := closed.passed s i active
  obtain ⟨item, at', p, α, β, there⟩ := Grammar.dotted_of_goes wf returned goes
  obtain ⟨layout, answer, exact⟩ := layoutAtDot_exact at' there
  have carried : ∀ y : Trait, y ∈ (b.row s).cell i → .item t j y ∈ F := fun y member =>
    passed _ (.move x t j y goes inner ((sound.under s).cell i y member))
  have admitted : ∀ l ∈ layout, .state t l ∈ F := fun l member => by
    obtain ⟨more, among⟩ := (exact l).mp member
    exact passed _ (.arrive x t j p α β l goes inner there more among)
  exact ⟨item, layout, at', answer, step_carry sound at' carried admitted, delivered_carry sound at' there exact⟩

theorem moves_step {b : Board} (sound : Sound a F b) {s t : Nat} {x : Symbol} (inner : x ≠ .terminal .endOfInput)
    (moves : List (Nat × Nat)) (known : ∀ i j, (i, j) ∈ moves → a.Goes s i x t j ∧ Grammar.Active F s i) :
    ∃ b', moves.foldlM (fun b (i, j) => do
        let layout ← layoutAtDot g (← a.item t j)
        return b.carry s i t j layout) b = .ok b' ∧
      Step a F b b' ∧ ∀ i j, (i, j) ∈ moves → i ∈ b'.marked s ∨ Delivered g a b' s i t j := by
  induction moves generalizing b with
  | nil => exact ⟨b, rfl, .refl sound, by simp⟩
  | cons move moves ih =>
      obtain ⟨i, j⟩ := move
      obtain ⟨goes, active⟩ := known i j List.mem_cons_self
      obtain ⟨item, layout, at', answer, here, done⟩ := carry_step wf returned closed sound goes inner active
      obtain ⟨b', ran, later, rest⟩ := ih here.sound fun k l member => known k l (List.mem_cons_of_mem _ member)
      refine ⟨b', ?_, here.trans later, fun k l member => ?_⟩
      · rw [List.foldlM_cons]
        simp only [at', answer, bind, Except.bind, pure, Except.pure]
        exact ran
      · rcases List.mem_cons.mp member with first | among
        · obtain ⟨rfl, rfl⟩ := Prod.mk.inj first
          rcases done with marked | delivered
          · exact .inl (later.advances.marks s k marked)
          · exact delivered.advance later.advances
        · exact rest k l among

theorem carryOver_step {b : Board} (sound : Sound a F b) {s k : Nat} {x : Symbol} {item : Item} {visited : BitSet Nat}
    (active : ∀ i ∈ visited, Grammar.Active F s i) (at' : a.item s k = .ok item) (move : g.moveSymbol? item = some x) :
    ∃ b', carryOver (Network.of g g.context a) s visited b x = .ok b' ∧ Step a F b b' ∧
      ∀ i ∈ visited, ∀ t j, a.Goes s i x t j → i ∈ b'.marked s ∨ Delivered g a b' s i t j := by
  obtain ⟨edge, taken⟩ := Grammar.edge_exists returned at' move
  obtain ⟨b', ran, step, done⟩ := moves_step wf returned closed sound (Grammar.moveSymbol?_eq_some_iff.mp move).2
    (edge.moves.filter fun move => move.1 ∈ visited) fun i j member => by
      obtain ⟨among, inside⟩ := List.mem_filter.mp member
      exact ⟨⟨edge, taken, rfl, among⟩, active i (of_decide_eq_true inside)⟩
  refine ⟨b', ?_, step, fun i inside t j goes => ?_⟩
  · unfold carryOver
    simp only [Network.of, taken, bind, Except.bind]
    exact ran
  · obtain ⟨edge', taken', rfl, among⟩ := goes
    rw [taken, Except.ok.injEq] at taken'
    subst taken'
    exact done i j (List.mem_filter.mpr ⟨among, decide_eq_true inside⟩)

theorem symbols_step {b : Board} (sound : Sound a F b) {s : Nat} {visited : BitSet Nat}
    (active : ∀ i ∈ visited, Grammar.Active F s i) (xs : List Symbol)
    (moving : ∀ x ∈ xs, ∃ k item, a.item s k = .ok item ∧ g.moveSymbol? item = some x) :
    ∃ b', xs.foldlM (carryOver (Network.of g g.context a) s visited) b = .ok b' ∧ Step a F b b' ∧
      ∀ x ∈ xs, ∀ i ∈ visited, ∀ t j, a.Goes s i x t j → i ∈ b'.marked s ∨ Delivered g a b' s i t j := by
  induction xs generalizing b with
  | nil => exact ⟨b, rfl, .refl sound, by simp⟩
  | cons x xs ih =>
      obtain ⟨k, item, at', move⟩ := moving x List.mem_cons_self
      obtain ⟨b₁, here, first, done⟩ := carryOver_step wf returned closed sound active at' move
      obtain ⟨b', ran, later, rest⟩ := ih first.sound fun y member => moving y (List.mem_cons_of_mem x member)
      refine ⟨b', ?_, first.trans later, fun y member i inside t j goes => ?_⟩
      · rw [List.foldlM_cons, here]
        exact ran
      · rcases List.mem_cons.mp member with rfl | among
        · rcases done i inside t j goes with marked | delivered
          · exact .inl (later.advances.marks s i marked)
          · exact delivered.advance later.advances
        · exact rest y among i inside t j goes

end

structure Served (g : Grammar) (a : Automaton) (b : Board) (s k : Nat) : Prop where
  within : Row.Done ((Network.of g g.context a).outlooks.getD s #[]) (b.row s) k
  along : ∀ x t j, a.Goes s k x t j → Delivered g a b s k t j

theorem Served.later {g : Grammar} {a : Automaton} {b b' : Board} {s k : Nat} (served : Served g a b s k)
    (grows : Grows b b') (same : (b'.row s).cell k = (b.row s).cell k) : Served g a b' s k where
  within := served.within.later (grows.row s) same
  along x t j goes := (served.along x t j goes).later grows same

theorem mem_activeSymbols {g : Grammar} {items : Array Item} {visited : BitSet Nat} {x : Symbol} :
    x ∈ activeSymbols g items visited ↔ ∃ i ∈ visited, ∃ item, items[i]? = some item ∧ g.moveSymbol? item = some x := by
  simp only [activeSymbols, Numbering.mem_ofList, List.mem_filterMap, BitSet.mem_toList, Option.bind_eq_some_iff]

theorem mem_activeSymbols_of_goes {g : Grammar} {a : Automaton} (returned : g.automaton = .ok a) {s k t j : Nat} {x : Symbol}
    {state : State} {visited : BitSet Nat} (found : a.states[s]? = some state) (member : k ∈ visited)
    (goes : a.Goes s k x t j) : x ∈ activeSymbols g state.items visited := by
  obtain ⟨edge, taken, -, move⟩ := goes
  obtain ⟨item, at', moving, -⟩ := Grammar.move_sound returned taken move
  obtain ⟨_, found', atK⟩ := Automaton.item_eq_ok_iff.mp at'
  rw [found, Option.some.injEq] at found'
  subst found'
  exact mem_activeSymbols.mpr ⟨k, member, item, atK, moving⟩

theorem outlooks_exact {g : Grammar} {a : Automaton} (wf : g.WellFormed) (returned : g.automaton = .ok a) (s k : Nat)
    (item : Item) (at' : a.item s k = .ok item) : ∃ o p α β,
      ((Network.of g g.context a).outlooks.getD s #[]).getD k (.error (.indexOutOfRange k)) = .ok o ∧
        g.Describes a s k o p α β := by
  obtain ⟨state, atS, atK⟩ := Automaton.item_eq_ok_iff.mp at'
  obtain ⟨o, p, α, β, answer, describes⟩ := Grammar.outlook_exact wf returned atS atK
  refine ⟨o, p, α, β, ?_, describes⟩
  simp only [Network.of, Array.getD_eq_getD_getElem?, Array.getElem?_map, atS, Option.map_some, Option.getD_some,
    Grammar.outlooks, atK]
  exact answer

section

variable {g : Grammar} {a : Automaton} {F : Set Fact} (wf : g.WellFormed) (returned : g.automaton = .ok a)
  (closed : g.Closed a F) (bounded : ∀ s i x, .item s i x ∈ F → x ∈ g.traits)
include wf returned closed bounded

theorem settle_row {b : Board} (sound : Sound a F b) (s : Nat) {seed : BitSet Nat}
    (ready : ∀ k ∈ seed, (∃ item, a.item s k = .ok item) ∧ Grammar.Active F s k) :
    ∃ after, (b.row s).settle ((Network.of g g.context a).outlooks.getD s #[])
        ((b.row s).cells.size * (Network.of g g.context a).capacity + 1) seed ∅ = .ok after ∧
      Row.Rests ((Network.of g g.context a).outlooks.getD s #[]) (b.row s) seed ∅ after ∧
      Row.Advances (b.row s, seed) after ∧ Row.Under F s after.1 ∧
      ∀ k ∈ after.2, Row.Done ((Network.of g g.context a).outlooks.getD s #[]) after.1 k ∧
        (∃ item, a.item s k = .ok item) ∧ Grammar.Active F s k := by
  have most := Row.missing_le g (List.range (b.row s).cells.size) (b.row s).cell
  rw [Grammar.length_traits, List.length_range] at most
  obtain ⟨after, settled, settles⟩ :=
    Row.settle_visited (outlooks_exact wf returned s) closed (bounded s)
      ((b.row s).cells.size * (Network.of g g.context a).capacity + 1) (b.row s) seed ∅
      (fun i other atI => (sound.cells s i).mpr ⟨other, atI⟩) (sound.under s) ready (by simp) (.inr (Nat.lt_succ_of_le most))
  refine ⟨after, settled, settles.rests, ⟨settles.advances.grows, fun k member => ?_, settles.advances.kept⟩, settles.under,
    fun k member => ⟨settles.done k member, ?_⟩⟩
  · exact settles.advances.marks k (BitSet.mem_union.mpr (.inr member))
  · exact (settles.ready k member).resolve_left (BitSet.not_mem_empty k)

-- What is left to do after a state has been passed on was left to do before, and has not changed.
theorem passOn_step {b : Board} (sound : Sound a F b) {s : Nat} {seed : BitSet Nat} (bound : s < a.states.size)
    (ready : ∀ k ∈ seed, (∃ item, a.item s k = .ok item) ∧ Grammar.Active F s k) :
    ∃ b', passOn (Network.of g g.context a) b (seed, s) = .ok b' ∧
      PassesOn (Network.of g g.context a) b (seed, s) b' ∧ Grows b b' ∧ Sound a F b' ∧
      (∀ u, ∀ k ∈ b.marked u, k ∈ b'.marked u) ∧
      (∀ u, ∀ k ∈ b'.marked u, k ∈ b.marked u ∨ Row.Fresh (b.row u) (b'.row u) k) ∧
      ∀ u k, k ∈ b'.marked u ∨ Served g a b' u k ∨
        (b'.row u).cell k = (b.row u).cell k ∧ ¬ Served g a b u k ∧ ¬ (u = s ∧ k ∈ seed) := by
  obtain ⟨state, found⟩ : ∃ state, a.states[s]? = some state := ⟨_, Array.getElem?_eq_getElem bound⟩
  have here : (Network.of g g.context a).automaton.state s = .ok state := Automaton.state_eq_ok_iff.mpr found
  have inside : s < b.rows.size := sound.rows ▸ bound
  obtain ⟨⟨row, visited⟩, settled, rests, advances, under, known⟩ := settle_row wf returned closed bounded sound s ready
  obtain ⟨b', ran, step, delivered⟩ :=
    symbols_step wf returned closed (sound_place inside sound advances.grows under) (fun k member => (known k member).2.2)
      (activeSymbols g state.items visited) fun x member => by
        obtain ⟨k, -, item, atK, move⟩ := mem_activeSymbols.mp member
        exact ⟨k, item, Automaton.item_eq_ok_iff.mpr ⟨state, found, atK⟩, move⟩
  have placed : Grows b (b.place s row) := grows_place inside advances.grows
  have grows : Grows b b' := placed.trans step.advances.grows
  -- An item that is visited has passed on all it has by now, unless it has to be visited again.
  have visitedServed : ∀ k ∈ visited, (b'.row s).cell k = ((b.place s row).row s).cell k →
      k ∈ b'.marked s ∨ Served g a b' s k := by
    intro k member same
    by_cases marked : k ∈ b'.marked s
    · exact .inl marked
    · refine .inr ⟨Row.Done.later ?_ (step.advances.grows.row s) same, fun x t j goes => ?_⟩
      · rw [row_place inside, if_pos rfl]
        exact (known k member).1
      · have among := mem_activeSymbols_of_goes returned found member goes
        exact (delivered x among k member t j goes).resolve_left marked
  -- Settling the row has not touched any other item.
  have skipped : ∀ u k, ¬ (u = s ∧ k ∈ visited) → ((b.place s row).row u).cell k = (b.row u).cell k := by
    intro u k other
    rw [row_place inside]
    by_cases at' : u = s
    · rw [if_pos at', at']
      exact (advances.kept k).resolve_left fun member => other ⟨at', member⟩
    · rw [if_neg at']
  refine ⟨b', ?_, ⟨(row, visited), state, rests, here, ran⟩, grows, step.sound, step.advances.marks,
    fun u k member => ?_, fun u k => ?_⟩
  · unfold passOn
    simp only [settled, here, bind, Except.bind]
    exact ran
  · exact (step.fresh u k member).imp_right fun fresh => fresh.earlier (placed.row u)
  · rcases step.advances.kept u k with marked | same
    · exact .inl marked
    by_cases visit : u = s ∧ k ∈ visited
    · obtain ⟨rfl, member⟩ := visit
      exact (visitedServed k member same).imp_right .inl
    · have unchanged : (b'.row u).cell k = (b.row u).cell k := same.trans (skipped u k visit)
      by_cases served : Served g a b u k
      · exact .inr (.inl (served.later grows unchanged))
      · exact .inr (.inr ⟨unchanged, served, fun seeded => visit ⟨seeded.1, advances.marks k seeded.2⟩⟩)

end

end Board

end Lookahead
