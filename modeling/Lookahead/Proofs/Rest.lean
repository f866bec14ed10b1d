import Lookahead.Table.Board

set_option autoImplicit false

namespace Lookahead

namespace Row

-- The rounds come to an end, and in these cells and visits.
inductive Rests (outlooks : Array (Except Fault Outlook)) : Row → (active visited : BitSet Nat) → Row × BitSet Nat → Prop where
  | stop (row : Row) (visited : BitSet Nat) : Rests outlooks row ∅ visited (row, visited)
  | round (row row' : Row) (active visited grown : BitSet Nat) (after : Row × BitSet Nat) (left : active ≠ ∅)
      (ran : active.toList.foldlM (visit outlooks) (row, ∅) = .ok (row', grown))
      (rest : Rests outlooks row' grown (visited ∪ active) after) : Rests outlooks row active visited after

variable {outlooks : Array (Except Fault Outlook)} {row : Row} {active visited : BitSet Nat} {after after' : Row × BitSet Nat}

theorem Rests.settle (rests : Rests outlooks row active visited after) :
    ∃ rounds, ∀ limit, rounds ≤ limit → Row.settle outlooks limit row active visited = .ok after := by
  induction rests with
  | stop row visited =>
      refine ⟨0, fun limit _ => ?_⟩
      cases limit with
      | zero => rfl
      | succ limit => rw [Row.settle, if_pos rfl]
  | round row row' active visited grown after left ran _ ih =>
      obtain ⟨rounds, enough⟩ := ih
      refine ⟨rounds + 1, fun limit bound => ?_⟩
      obtain ⟨limit, rfl⟩ := Nat.exists_eq_add_of_le' bound
      rw [← Nat.add_assoc, Row.settle, if_neg left, ran]
      exact enough _ (Nat.le_add_left rounds limit)

theorem Rests.unique (rests : Rests outlooks row active visited after) (others : Rests outlooks row active visited after') :
    after = after' := by
  obtain ⟨m, first⟩ := rests.settle
  obtain ⟨n, second⟩ := others.settle
  exact Except.ok.inj ((first (max m n) (Nat.le_max_left m n)).symm.trans (second (max m n) (Nat.le_max_right m n)))

end Row

namespace Board

def PassesOn (net : Network) (b : Board) (marked : BitSet Nat × Nat) (b' : Board) : Prop :=
  ∃ after state, Row.Rests (net.outlooks.getD marked.2 #[]) (b.row marked.2) marked.1 ∅ after ∧
    net.automaton.state marked.2 = .ok state ∧
    (activeSymbols net.grammar state.items after.2).foldlM (carryOver net marked.2 after.2)
      ⟨b.rows.modify marked.2 fun _ => after.1, b.marks⟩ = .ok b'

inductive Sweeps (net : Network) : Board → List (BitSet Nat × Nat) → Board → Prop where
  | done (b : Board) : Sweeps net b [] b
  | next (b b' b'' : Board) (marked : BitSet Nat × Nat) (rest : List (BitSet Nat × Nat)) (here : PassesOn net b marked b')
      (later : Sweeps net b' rest b'') : Sweeps net b (marked :: rest) b''

-- The waves come to an end, and in this board.
inductive Converges (net : Network) : Board → Board → Prop where
  | rest (b : Board) (settled : b.Settled) : Converges net b b
  | wave (b b' b'' : Board) (unsettled : ¬ b.Settled)
      (sweeps : Sweeps net b.unmarked (b.marks.toList.zipIdx.filter (·.1 ≠ ∅)) b') (later : Converges net b' b'') :
      Converges net b b''

variable {net : Network}

theorem PassesOn.unique {b c d : Board} {marked : BitSet Nat × Nat} (first : PassesOn net b marked c)
    (second : PassesOn net b marked d) : c = d := by
  obtain ⟨after, state, rests, found, ran⟩ := first
  obtain ⟨after', state', rests', found', ran'⟩ := second
  obtain rfl := rests.unique rests'
  rw [found, Except.ok.injEq] at found'
  subst found'
  rw [ran, Except.ok.injEq] at ran'
  exact ran'

theorem Sweeps.unique {b c d : Board} {seeds : List (BitSet Nat × Nat)} (first : Sweeps net b seeds c)
    (second : Sweeps net b seeds d) : c = d := by
  induction first with
  | done b =>
      cases second
      rfl
  | next b b' b'' marked rest here _ ih =>
      cases second with
      | next _ c' _ _ _ here' later' =>
          obtain rfl := here.unique here'
          exact ih later'

theorem Converges.unique {b c d : Board} (first : Converges net b c) (second : Converges net b d) : c = d := by
  induction first with
  | rest b settled =>
      cases second with
      | rest => rfl
      | wave _ _ _ unsettled => exact absurd settled unsettled
  | wave b b' b'' unsettled sweeps _ ih =>
      cases second with
      | rest _ settled => exact absurd settled unsettled
      | wave _ c' _ _ sweeps' later' =>
          obtain rfl := sweeps.unique sweeps'
          exact ih later'

end Board

end Lookahead
