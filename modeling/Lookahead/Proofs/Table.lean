import Lookahead.Proofs.Board
import Lookahead.Proofs.Canonical
import Lookahead.Table.Basic

set_option autoImplicit false

namespace Lookahead

namespace Board

-- What holds in the middle of a wave that began with `b₀`: an active item is marked, or has passed on all it has,
-- or is still to be visited, by one of the seeds in `rest`.
structure Wave (g : Grammar) (a : Automaton) (F : Set Fact) (b₀ : Board) (rest : List (BitSet Nat × Nat))
    (b : Board) : Prop where
  sound : Sound a F b
  grows : Grows b₀ b
  fresh : ∀ s, ∀ i ∈ b.marked s, Row.Fresh (b₀.row s) (b.row s) i
  due : ∀ s k, Grammar.Active b.facts s k → k ∈ b.marked s ∨ Served g a b s k ∨ ∃ seed, (seed, s) ∈ rest ∧ k ∈ seed

theorem active_of_same {b b' : Board} {s k : Nat} (same : (b'.row s).cell k = (b.row s).cell k)
    (active : Grammar.Active b'.facts s k) : Grammar.Active b.facts s k := by
  rcases active with start | ⟨x, member⟩
  · exact .inl start
  · have held : x ∈ (b'.row s).cell k := member
    rw [same] at held
    exact .inr ⟨x, held⟩

theorem mem_seeds {b : Board} {seed : BitSet Nat} {s : Nat} :
    (seed, s) ∈ b.marks.toList.zipIdx.filter (·.1 ≠ ∅) ↔ b.marks[s]? = some seed ∧ seed ≠ ∅ := by
  rw [List.mem_filter, List.mk_mem_zipIdx_iff_getElem?, Array.getElem?_toList, decide_eq_true_iff]

theorem marked_eq {b : Board} {seed : BitSet Nat} {s : Nat} (found : b.marks[s]? = some seed) : b.marked s = seed := by
  rw [marked, Array.getD_eq_getD_getElem?, found, Option.getD_some]

theorem found_of_mem_marked {b : Board} {s i : Nat} (member : i ∈ b.marked s) : b.marks[s]? = some (b.marked s) := by
  cases found : b.marks[s]? with
  | none => simp [marked, Array.getD_eq_getD_getElem?, found] at member
  | some seed => rw [marked_eq found]

theorem not_mem_marked_unmarked (b : Board) (s i : Nat) : i ∉ b.unmarked.marked s := by
  unfold marked unmarked
  rw [Array.getD_eq_getD_getElem?, Array.getElem?_map]
  cases b.marks[s]? <;> simp

theorem marked_of_settled {b : Board} (settled : b.Settled) (s i : Nat) : i ∉ b.marked s := by
  unfold marked
  rw [Array.getD_eq_getD_getElem?]
  cases found : b.marks[s]? with
  | none => simp
  | some seed =>
      obtain rfl := settled seed (Array.mem_of_getElem? found)
      simp

theorem mark_of_not_settled {b : Board} (unsettled : ¬ b.Settled) : ∃ s i, i ∈ b.marked s := by
  unfold Settled at unsettled
  push Not at unsettled
  obtain ⟨seed, member, some⟩ := unsettled
  obtain ⟨s, found⟩ := Array.mem_iff_getElem?.mp member
  obtain ⟨i, among⟩ := BitSet.ne_empty_iff.mp some
  exact ⟨s, i, marked_eq found ▸ among⟩

theorem Wave.done {g : Grammar} {a : Automaton} {F : Set Fact} {b b' : Board} (wave : Wave g a F b [] b') (s k : Nat)
    (active : Grammar.Active b'.facts s k) : k ∈ b'.marked s ∨ Served g a b' s k := by
  rcases wave.due s k active with marked | served | ⟨_, none, -⟩
  · exact .inl marked
  · exact .inr served
  · exact absurd none List.not_mem_nil

-- A wave that leaves a mark has put something into a cell.
theorem Wave.missing_lt {g : Grammar} {a : Automaton} {F : Set Fact} {b b' : Board} (wave : Wave g a F b [] b')
    (bounded : ∀ s i x, .item s i x ∈ F → x ∈ g.traits) (slots : List (Nat × Nat))
    (listed : ∀ s i item, a.item s i = .ok item → (s, i) ∈ slots) (unsettled : ¬ b'.Settled) :
    Row.missing g slots (fun (s, i) => (b'.row s).cell i) < Row.missing g slots (fun (s, i) => (b.row s).cell i) := by
  obtain ⟨s, i, marked⟩ := mark_of_not_settled unsettled
  obtain ⟨⟨item, at'⟩, -⟩ := wave.sound.ready s i marked
  obtain ⟨x, new, old⟩ := wave.fresh s i marked
  exact Row.missing_lt g slots (fun (s, i) => (b.row s).cell i) (fun (s, i) => (b'.row s).cell i)
    (fun (u, j) _ y => (wave.grows.row u).cell j y) (listed s i item at')
    (bounded s i x ((wave.sound.under s).cell i x new)) old new

section

variable {g : Grammar} {a : Automaton} {F : Set Fact} (wf : g.WellFormed) (returned : g.automaton = .ok a)
  (closed : g.Closed a F) (bounded : ∀ s i x, .item s i x ∈ F → x ∈ g.traits)
include wf returned closed bounded

theorem passOn_wave {b₀ b : Board} {seed : BitSet Nat} {s : Nat} {rest : List (BitSet Nat × Nat)}
    (wave : Wave g a F b₀ ((seed, s) :: rest) b) (bound : s < a.states.size)
    (ready : ∀ k ∈ seed, (∃ item, a.item s k = .ok item) ∧ Grammar.Active F s k) :
    ∃ b', passOn (Network.of g g.context a) b (seed, s) = .ok b' ∧
      PassesOn (Network.of g g.context a) b (seed, s) b' ∧ Wave g a F b₀ rest b' := by
  obtain ⟨b', ran, passes, grows, sound, marks, fresh, left⟩ := passOn_step wf returned closed bounded wave.sound bound ready
  refine ⟨b', ran, passes, sound, wave.grows.trans grows, fun u k member => ?_, fun u k active => ?_⟩
  · rcases fresh u k member with old | new
    · exact (wave.fresh u k old).later (grows.row u)
    · exact new.earlier (wave.grows.row u)
  · rcases left u k with marked | served | ⟨same, unserved, elsewhere⟩
    · exact .inl marked
    · exact .inr (.inl served)
    · rcases wave.due u k (active_of_same same active) with marked | served | ⟨other, member, among⟩
      · exact .inl (marks u k marked)
      · exact absurd served unserved
      · rcases List.mem_cons.mp member with first | later
        · obtain ⟨rfl, rfl⟩ := Prod.mk.inj first
          exact absurd ⟨rfl, among⟩ elsewhere
        · exact .inr (.inr ⟨other, later, among⟩)

theorem foldlM_wave {b₀ : Board} (seeds : List (BitSet Nat × Nat)) {b : Board} (wave : Wave g a F b₀ seeds b)
    (ready : ∀ seed s, (seed, s) ∈ seeds → s < a.states.size ∧
      ∀ k ∈ seed, (∃ item, a.item s k = .ok item) ∧ Grammar.Active F s k) :
    ∃ b', seeds.foldlM (passOn (Network.of g g.context a)) b = .ok b' ∧
      Sweeps (Network.of g g.context a) b seeds b' ∧ Wave g a F b₀ [] b' := by
  induction seeds generalizing b with
  | nil => exact ⟨b, rfl, .done b, wave⟩
  | cons first rest ih =>
      obtain ⟨seed, s⟩ := first
      obtain ⟨bound, here⟩ := ready seed s List.mem_cons_self
      obtain ⟨b₁, ran, passes, wave₁⟩ := passOn_wave wf returned closed bounded wave bound here
      obtain ⟨b', ran', sweeps, wave'⟩ := ih wave₁ fun other u member => ready other u (List.mem_cons_of_mem _ member)
      refine ⟨b', ?_, .next b b₁ b' _ rest passes sweeps, wave'⟩
      rw [List.foldlM_cons, ran]
      exact ran'

theorem wave_wave {b : Board} (sound : Sound a F b)
    (due : ∀ s k, Grammar.Active b.facts s k → k ∈ b.marked s ∨ Served g a b s k) :
    ∃ b', wave (Network.of g g.context a) b = .ok b' ∧
      Sweeps (Network.of g g.context a) b.unmarked (b.marks.toList.zipIdx.filter (·.1 ≠ ∅)) b' ∧ Wave g a F b [] b' := by
  have same : Grows b b.unmarked := ⟨rfl, by simp [unmarked], fun _ => .refl _⟩
  refine foldlM_wave wf returned closed bounded _ ⟨⟨sound.rows, same.marks.trans sound.marks, sound.cells, sound.under,
    fun s i member => absurd member (not_mem_marked_unmarked b s i)⟩, same,
    fun s i member => absurd member (not_mem_marked_unmarked b s i), fun s k active => ?_⟩ fun seed s member => ?_
  · rcases due s k active with marked | served
    · have seeded := mem_seeds.mpr ⟨found_of_mem_marked marked, BitSet.ne_empty_iff.mpr ⟨k, marked⟩⟩
      exact .inr (.inr ⟨b.marked s, seeded, marked⟩)
    · exact .inr (.inl (served.later same rfl))
  · obtain ⟨found, -⟩ := mem_seeds.mp member
    obtain ⟨bound, -⟩ := Array.getElem?_eq_some_iff.mp found
    exact ⟨sound.marks ▸ bound, fun k among => sound.ready s k (marked_eq found ▸ among)⟩

theorem spread_settled (slots : List (Nat × Nat)) (listed : ∀ s i item, a.item s i = .ok item → (s, i) ∈ slots)
    (waves : Nat) {b : Board} (sound : Sound a F b)
    (due : ∀ s k, Grammar.Active b.facts s k → k ∈ b.marked s ∨ Served g a b s k)
    (enough : b.Settled ∨ Row.missing g slots (fun (s, i) => (b.row s).cell i) < waves) :
    ∃ b', spread (Network.of g g.context a) waves b = .ok b' ∧ Converges (Network.of g g.context a) b b' ∧
      Grows b b' ∧ Sound a F b' ∧
      ∀ s k, Grammar.Active b'.facts s k → Served g a b' s k := by
  have rested : b.Settled → ∀ s k, Grammar.Active b.facts s k → Served g a b s k := fun settled s k active =>
    (due s k active).resolve_left (marked_of_settled settled s k)
  induction waves generalizing b with
  | zero =>
      have settled := enough.resolve_right (Nat.not_lt_zero _)
      exact ⟨b, rfl, .rest b settled, .refl b, sound, rested settled⟩
  | succ waves ih =>
      rw [spread]
      by_cases settled : b.Settled
      · rw [if_pos settled]
        exact ⟨b, rfl, .rest b settled, .refl b, sound, rested settled⟩
      · rw [if_neg settled]
        obtain ⟨b₁, ran, sweeps, here⟩ := wave_wave wf returned closed bounded sound due
        have next : b₁.Settled ∨ Row.missing g slots (fun (s, i) => (b₁.row s).cell i) < waves := by
          by_cases settled₁ : b₁.Settled
          · exact .inl settled₁
          · exact .inr (Nat.lt_of_lt_of_le (here.missing_lt bounded slots listed settled₁)
              (Nat.lt_succ_iff.mp (enough.resolve_left settled)))
        obtain ⟨b', ran', converges, grows, sound', served⟩ := ih here.sound here.done next fun settled₁ s k active =>
          (here.done s k active).resolve_left (marked_of_settled settled₁ s k)
        refine ⟨b', ?_, .wave b b₁ b' settled sweeps converges, here.grows.trans grows, sound', served⟩
        rw [ran]
        exact ran'

end

theorem lt_size_of_mem_cell {row : Row} {i : Nat} {x : Trait} (member : x ∈ row.cell i) : i < row.cells.size := by
  by_contra outside
  rw [Row.cell, Array.getD_eq_getD_getElem?, Array.getElem?_eq_none (Nat.le_of_not_lt outside), Option.getD_none] at member
  exact Cell.not_mem_empty x member

theorem closed_of_served {g : Grammar} {a : Automaton} {F : Set Fact} (wf : g.WellFormed) (returned : g.automaton = .ok a)
    {b : Board} (sound : Sound a F b) (start : ∀ l ∈ g.startLayout, .item 0 0 (.opening l) ∈ b.facts)
    (served : ∀ s k, Grammar.Active b.facts s k → Served g a b s k) : g.Closed a b.facts := by
  refine ⟨start, fun s k active fact passes => ?_⟩
  obtain ⟨within, along⟩ := served s k active
  have known : ∃ item, a.item s k = .ok item := by
    rcases active with ⟨rfl, rfl⟩ | ⟨x, member⟩
    · exact ⟨_, Grammar.item_start returned⟩
    · exact (sound.cells s k).mp (lt_size_of_mem_cell member)
  obtain ⟨item, at'⟩ := known
  obtain ⟨o, p, α, β, answer, describes⟩ := outlooks_exact wf returned s k item at'
  obtain ⟨offered, admitted⟩ := within o answer
  rcases describes.passes_cases (c := (b.row s).cell k) (fun _ => id) passes with
    ⟨i, among, x, member, rfl⟩ | ⟨l, member, rfl⟩ | ⟨x, t, j, goes, ⟨y, member, rfl⟩ | ⟨q, γ, δ, l, there, more, member, rfl⟩⟩
  · exact offered i among x member
  · exact admitted l member
  · exact (along x t j goes).cell y member
  · exact (along x t j goes).layout q γ δ there more l member

theorem row_empty {a : Automaton} (s : Nat) :
    ∃ n, (⟨a.states.map fun state => Row.empty state.items.size, #[]⟩ : Board).row s = .empty n ∧
      ∀ i, i < n ↔ ∃ item, a.item s i = .ok item := by
  unfold row
  rw [Array.getD_eq_getD_getElem?, Array.getElem?_map]
  simp only [Automaton.item_eq_ok_iff]
  cases a.states[s]? with
  | none => exact ⟨0, rfl, by simp⟩
  | some state =>
      refine ⟨state.items.size, rfl, fun i => ?_⟩
      simp only [Option.some.injEq, exists_eq_left', Array.getElem?_eq_some_iff]
      exact ⟨fun bound => ⟨_, bound, rfl⟩, fun ⟨_, bound, _⟩ => bound⟩

theorem mem_cell_empty (n i : Nat) (x : Trait) : ¬ x ∈ (Row.empty n).cell i := by
  rw [Row.cell, Array.getD_eq_getD_getElem?]
  simp only [Row.empty, List.getElem?_toArray, List.getElem?_replicate]
  split <;> exact Cell.not_mem_empty x

section

variable {g : Grammar} {a : Automaton} (returned : g.automaton = .ok a)
include returned

theorem size_states_pos : 0 < a.states.size := by
  obtain ⟨state, found, -⟩ := Automaton.item_eq_ok_iff.mp (Grammar.item_start returned)
  exact (Array.getElem?_eq_some_iff.mp found).1

theorem row_initial (s : Nat) :
    (∀ i, i < ((initial g a).row s).cells.size ↔ ∃ item, a.item s i = .ok item) ∧
      ((initial g a).row s).layout = ∅ ∧
      ∀ i (x : Trait), x ∈ ((initial g a).row s).cell i ↔ (s = 0 ∧ i = 0) ∧ ∃ l ∈ g.startLayout, x = .opening l := by
  obtain ⟨n, empty, sized⟩ := row_empty (a := a) s
  have split := row_modify ⟨a.states.map fun state => Row.empty state.items.size, #[]⟩ (initial g a).marks 0
    (fun row => row.merge 0 ⟨∅, g.startLayout, ∅⟩) s
  change (initial g a).row s = _ at split
  have held : ∀ x : Trait, x ∈ (⟨∅, g.startLayout, ∅⟩ : Cell) ↔ ∃ l ∈ g.startLayout, x = .opening l := by
    intro x
    cases x with
    | lookahead t => exact ⟨fun member => absurd member (BitSet.not_mem_empty t), by simp⟩
    | opening l =>
        simp only [Trait.opening.injEq, exists_eq_right']
        exact Iff.rfl
    | closing l => exact ⟨fun member => absurd member (BitSet.not_mem_empty l), by simp⟩
  rw [empty] at split
  by_cases here : s = 0
  · subst here
    rw [if_pos ⟨rfl, by simpa using size_states_pos returned⟩] at split
    have inside : 0 < (Row.empty n).cells.size := by
      have first := (sized 0).mpr ⟨_, Grammar.item_start returned⟩
      simpa [Row.empty] using first
    rw [split]
    refine ⟨fun i => ?_, rfl, fun i x => ?_⟩
    · rw [Row.size_merge, ← sized]
      simp [Row.empty]
    · rw [Row.mem_cell_merge, held]
      simp [mem_cell_empty, inside]
  · rw [if_neg fun both => here both.1] at split
    rw [split]
    refine ⟨fun i => ?_, rfl, fun i x => ?_⟩
    · rw [← sized]
      simp [Row.empty]
    · simp [mem_cell_empty, here]

theorem mem_marked_initial {s i : Nat} : i ∈ (initial g a).marked s ↔ s = 0 ∧ i = 0 := by
  have inserted := mem_marked_insert ⟨#[], a.states.map fun _ => ∅⟩ (initial g a).rows (t := 0) (j := 0) (u := s) (k := i)
    (by simpa using size_states_pos returned)
  change i ∈ (initial g a).marked s ↔ _ at inserted
  rw [inserted]
  refine ⟨fun member => member.resolve_left fun old => ?_, .inr⟩
  rw [marked, Array.getD_eq_getD_getElem?, Array.getElem?_map] at old
  cases found : a.states[s]? <;> simp [found] at old

theorem sound_initial {F : Set Fact} (closed : g.Closed a F) : Sound a F (initial g a) where
  rows := by simp [initial]
  marks := by simp [initial]
  cells s := (row_initial returned s).1
  under s := by
    obtain ⟨-, layout, cells⟩ := row_initial returned s
    refine ⟨fun i x member => ?_, fun l member => ?_⟩
    · obtain ⟨⟨rfl, rfl⟩, l, admitted, rfl⟩ := (cells i x).mp member
      exact closed.start l admitted
    · rw [layout] at member
      exact absurd member (BitSet.not_mem_empty l)
  ready s i member := by
    obtain ⟨rfl, rfl⟩ := (mem_marked_initial returned).mp member
    exact ⟨⟨_, Grammar.item_start returned⟩, .inl ⟨rfl, rfl⟩⟩

theorem active_initial {s k : Nat} (active : Grammar.Active (initial g a).facts s k) : s = 0 ∧ k = 0 := by
  rcases active with start | ⟨x, member⟩
  · exact start
  · exact (((row_initial returned s).2.2 k x).mp member).1

end

-- All the places of a board, of which there are as many as the limit on its waves counts.
def slots (b : Board) : List (Nat × Nat) :=
  b.rows.toList.zipIdx.flatMap fun (row, s) => (List.range row.cells.size).map (s, ·)

theorem length_slots (b : Board) : b.slots.length = b.rows.foldl (fun count row => count + row.cells.size) 0 := by
  have sizes : b.slots.length = (b.rows.toList.map fun row => row.cells.size).sum := by
    have firsts := congrArg (List.map fun row : Row => row.cells.size) (List.zipIdx_map_fst 0 b.rows.toList)
    rw [List.map_map] at firsts
    rw [← firsts, slots, List.length_flatMap]
    simp [Function.comp_def]
  rw [sizes, List.sum_eq_foldl_nat, List.foldl_map, Array.foldl_toList]

theorem mem_slots {b : Board} {s i : Nat} (inside : i < (b.row s).cells.size) : (s, i) ∈ b.slots := by
  cases found : b.rows[s]? with
  | none => simp [row, Row.empty, Array.getD_eq_getD_getElem?, found] at inside
  | some row' =>
      have same : b.row s = row' := by rw [row, Array.getD_eq_getD_getElem?, found, Option.getD_some]
      refine List.mem_flatMap.mpr ⟨(row', s), List.mk_mem_zipIdx_iff_getElem?.mpr (by simpa using found), ?_⟩
      exact List.mem_map_of_mem (List.mem_range.mpr (same ▸ inside))

theorem lt_size_of_mem_layout {b : Board} {s : Nat} {l : Layout} (member : l ∈ (b.row s).layout) : s < b.rows.size := by
  by_contra outside
  rw [row, Array.getD_eq_getD_getElem?, Array.getElem?_eq_none (Nat.le_of_not_lt outside), Option.getD_none] at member
  exact BitSet.not_mem_empty l member

theorem finite_facts (b : Board) : b.facts.Finite := by
  have cells : {fact : Fact | ∃ entry ∈ b.slots, ∃ x ∈ (b.row entry.1).cell entry.2, fact = .item entry.1 entry.2 x}.Finite := by
    refine (Set.Finite.biUnion (List.finite_toSet b.slots) fun entry _ =>
      (((b.row entry.1).cell entry.2).finite_traits.image (Fact.item entry.1 entry.2))).subset ?_
    rintro fact ⟨entry, among, x, member, rfl⟩
    exact Set.mem_biUnion among ⟨x, member, rfl⟩
  have layouts : {fact : Fact | ∃ s < b.rows.size, ∃ l ∈ (b.row s).layout, fact = .state s l}.Finite := by
    refine (Set.Finite.biUnion (Set.finite_lt_nat b.rows.size) fun s _ =>
      (List.finite_toSet (b.row s).layout.toList).image (Fact.state s)).subset ?_
    rintro fact ⟨s, bound, l, member, rfl⟩
    exact Set.mem_biUnion bound ⟨l, BitSet.mem_toList.mpr member, rfl⟩
  refine (cells.union layouts).subset fun fact member => ?_
  cases fact with
  | item s i x => exact .inl ⟨(s, i), mem_slots (lt_size_of_mem_cell member), x, member, rfl⟩
  | state s l => exact .inr ⟨s, lt_size_of_mem_layout member, l, member, rfl⟩

end Board

namespace Grammar

theorem table_of_spread {g : Grammar} {a : Automaton} (returned : g.automaton = .ok a) {b : Board}
    (ran : (Board.initial g a).spread (Network.of g g.context a)
      (waveLimit (Network.of g g.context a) (Board.initial g a)) = .ok b) :
    a.table g g.context = .ok ⟨b.rows.map Row.annotation, a.maxItemCount⟩ := by
  obtain ⟨state, atStart, first⟩ := Automaton.item_eq_ok_iff.mp (item_start returned)
  unfold Automaton.table
  simp only [Automaton.state_eq_ok_iff.mpr atStart, bind, Except.bind, first, ne_eq, not_true_eq_false, if_false, ran,
    pure, Except.pure]

section

variable {g : Grammar} {a : Automaton} (wf : g.WellFormed) (returned : g.automaton = .ok a)
include wf returned

theorem spread_exact : ∃ b : Board,
    (Board.initial g a).spread (Network.of g g.context a)
        (waveLimit (Network.of g g.context a) (Board.initial g a)) = .ok b ∧
      Board.Converges (Network.of g g.context a) (Board.initial g a) b ∧ b.rows.size = a.states.size ∧
      (∀ s i, i < (b.row s).cells.size ↔ ∃ item, a.item s i = .ok item) ∧ b.facts = g.least a := by
  have closed : g.Closed a (g.least a) := isLeast_least.1
  have sound := Board.sound_initial returned closed
  obtain ⟨b, ran, converges, grows, sound', served⟩ :=
    Board.spread_settled wf returned closed (fun s i x => wf.mem_traits_of_least)
    (Board.initial g a).slots (fun s i item at' => Board.mem_slots ((sound.cells s i).mpr ⟨item, at'⟩))
    (waveLimit (Network.of g g.context a) (Board.initial g a)) sound
    (fun s k active => .inl ((Board.mem_marked_initial returned).mpr (Board.active_initial returned active)))
    (.inr (by
      have most := Row.missing_le g (Board.initial g a).slots fun (s, i) => ((Board.initial g a).row s).cell i
      rw [length_traits, Board.length_slots] at most
      exact Nat.lt_succ_of_le most))
  have start : ∀ l ∈ g.startLayout, .item 0 0 (.opening l) ∈ b.facts := fun l member =>
    (grows.row 0).cell 0 _ (((Board.row_initial returned 0).2.2 0 _).mpr ⟨⟨rfl, rfl⟩, l, member, rfl⟩)
  refine ⟨b, ran, converges, sound'.rows, sound'.cells, Set.Subset.antisymm (fun fact member => ?_) ?_⟩
  · cases fact with
    | item s i x => exact (sound'.under s).cell i x member
    | state s l => exact (sound'.under s).layout l member
  · exact isLeast_least.2 (Board.closed_of_served wf returned sound' start served)

-- In the end the opening of every entry is admitted in its state, whenever and wherever it came up.
theorem permit_opening {b : Board}
    (ran : (Board.initial g a).spread (Network.of g g.context a)
      (waveLimit (Network.of g g.context a) (Board.initial g a)) = .ok b)
    {s i : Nat} {p : Production} {β : List Symbol} (entry : g.Dotted a s i p [] β) :
    (b.row s).permit ((b.row s).cell i).opening = b.row s := by
  obtain ⟨final, ran', -, -, -, least⟩ := spread_exact wf returned
  obtain rfl := Except.ok.inj (ran.symm.trans ran')
  refine Row.permit_eq_self fun l opens => ?_
  have known : .item s i (.opening l) ∈ b.facts := opens
  have admitted : .state s l ∈ b.facts := by
    rw [least] at known ⊢
    exact isLeast_least.1.passed s i (.inr ⟨_, known⟩) _ (.before p β l entry known)
  exact admitted

theorem table_exact : ∃ table, a.table g g.context = .ok table ∧
    (∀ s i item, a.item s i = .ok item →
      ∃ set, table.lookahead s i = .ok set ∧ ∀ t, t ∈ set ↔ .item s i (.lookahead t) ∈ g.least a) ∧
    ∀ s state, a.state s = .ok state → ∃ set, table.layout s = .ok set ∧ ∀ l, l ∈ set ↔ .state s l ∈ g.least a := by
  obtain ⟨b, ran, -, rows, cells, least⟩ := spread_exact wf returned
  have row : ∀ s, s < a.states.size → b.rows[s]? = some (b.row s) := fun s bound => by
    rw [Board.row, Array.getD_eq_getD_getElem?, Array.getElem?_eq_getElem (rows ▸ bound), Option.getD_some]
  refine ⟨⟨b.rows.map Row.annotation, a.maxItemCount⟩, table_of_spread returned ran,
    fun s i item at' => ?_, fun s state found => ?_⟩
  · obtain ⟨_, found, -⟩ := Automaton.item_eq_ok_iff.mp at'
    have bound := (Array.getElem?_eq_some_iff.mp found).1
    have inside := (cells s i).mpr ⟨item, at'⟩
    refine ⟨((b.row s).cell i).lookahead, ?_, fun t => ?_⟩
    · simp only [Table.lookahead, Table.annotation, Array.getElem?_map, row s bound, Option.map_some, bind, Except.bind,
        Row.annotation, Array.getElem?_eq_getElem inside, Row.cell, Array.getD_eq_getD_getElem?, Option.getD_some]
    · rw [← least]
      rfl
  · have bound := (Array.getElem?_eq_some_iff.mp (Automaton.state_eq_ok_iff.mp found)).1
    refine ⟨(b.row s).layout, ?_, fun l => ?_⟩
    · simp only [Table.layout, Table.annotation, Array.getElem?_map, row s bound, Option.map_some, bind, Except.bind,
        pure, Except.pure, Row.annotation]
    · rw [← least]
      rfl

theorem finite_least : (g.least a).Finite := by
  obtain ⟨b, -, -, -, -, least⟩ := spread_exact wf returned
  exact least ▸ b.finite_facts

end

variable {g : Grammar} {a : Automaton}

theorem table_least (accepted : g.Accepted) (returned : g.automaton = .ok a) :
    ∃ table F, a.table g g.context = .ok table ∧ IsLeast {F | g.Closed a F} F ∧
    (∀ s i item, a.item s i = .ok item →
      ∃ set, table.lookahead s i = .ok set ∧ ∀ t, t ∈ set ↔ .item s i (.lookahead t) ∈ F) ∧
    (∀ s state, a.state s = .ok state → ∃ set, table.layout s = .ok set ∧ ∀ l, l ∈ set ↔ .state s l ∈ F) ∧
    ∀ G, g.Gathers a G → Relation.ReflTransGen (g.Visits a) G F ∧
      ((∀ s k, Active G s k → ∀ fact, g.Passes a G s k fact → fact ∈ G) → G = F) := by
  obtain ⟨table, ran, lookahead, layout⟩ := table_exact accepted.wellFormed returned
  have finite := finite_least accepted.wellFormed returned
  exact ⟨table, g.least a, ran, isLeast_least, lookahead, layout,
    fun G gathers => ⟨gathers.visits_least finite, gathers.eq_least⟩⟩

theorem table_least_composed : composed.Accepted ∧ ∃ a, composed.automaton = .ok a ∧
    ∃ table F s, a.table composed composed.context = .ok table ∧ IsLeast {F | composed.Closed a F} F ∧
      a.follow 0 [Example.n 1, Example.t 1, Example.t 2, Example.t 3, Example.t 5] = .ok s ∧
      .state s ⟨1⟩ ∈ F ∧ .state s ⟨0⟩ ∉ F := by
  obtain ⟨a, returned⟩ : ∃ a, composed.automaton = .ok a := exists_of_isOk (by decide +kernel)
  have shown : (do
      let a ← composed.automaton
      let s ← a.follow 0 [Example.n 1, Example.t 1, Example.t 2, Example.t 3, Example.t 5]
      (← a.table composed composed.context).layout s).toOption = some {⟨1⟩} := by
    decide +kernel
  obtain ⟨table, F, ran, least, -, layout, -⟩ := table_least composed_accepted returned
  simp only [returned, ran, bind, Except.bind] at shown
  cases walked : a.follow 0 [Example.n 1, Example.t 1, Example.t 2, Example.t 3, Example.t 5] with
  | error fault =>
      rw [walked] at shown
      cases shown
  | ok s =>
      obtain ⟨i, item, at'⟩ := item_of_follow returned walked
      obtain ⟨state, found, -⟩ := Automaton.item_eq_ok_iff.mp at'
      obtain ⟨set, answer, exact⟩ := layout s state (Automaton.state_eq_ok_iff.mpr found)
      simp only [walked, answer, Except.toOption, Option.some.injEq] at shown
      subst shown
      exact ⟨composed_accepted, a, returned, table, F, s, ran, least, walked, (exact ⟨1⟩).mp (by decide),
        fun member => absurd ((exact ⟨0⟩).mpr member) (by decide)⟩

end Grammar

end Lookahead
