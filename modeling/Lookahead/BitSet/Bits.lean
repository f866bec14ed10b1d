set_option autoImplicit false

namespace Lookahead

theorem testBit_oneBit (i j : Nat) : (1 <<< i).testBit j = decide (i = j) := by
  rw [Nat.one_shiftLeft, Nat.testBit_two_pow]

def dropHighest (n : Nat) : Nat := n ^^^ 1 <<< n.log2

theorem testBit_dropHighest (n i : Nat) : (dropHighest n).testBit i = (n.testBit i ^^ decide (n.log2 = i)) := by
  rw [dropHighest, Nat.testBit_xor, testBit_oneBit]

theorem le_log2_of_testBit {n i : Nat} (set : n.testBit i = true) : i ≤ n.log2 := by
  have nonzero : n ≠ 0 := fun zero => by simp [zero] at set
  exact (Nat.le_log2 nonzero).mpr (Nat.ge_two_pow_of_testBit set)

theorem lt_log2_of_testBit_dropHighest {n i : Nat} (nonzero : n ≠ 0) (set : (dropHighest n).testBit i = true) :
    i < n.log2 := by
  rw [testBit_dropHighest] at set
  by_cases top : n.log2 = i
  · simp [← top, Nat.testBit_log2 nonzero] at set
  · have bound := le_log2_of_testBit (n := n) (i := i) (by simpa [top] using set)
    omega

theorem dropHighest_lt {n : Nat} (nonzero : n ≠ 0) : dropHighest n < n := by
  refine Nat.lt_of_lt_of_le (Nat.lt_pow_two_of_testBit _ fun i high => ?_) (Nat.log2_self_le nonzero)
  refine Bool.eq_false_iff.mpr fun set => ?_
  exact Nat.not_lt.mpr high (lt_log2_of_testBit_dropHighest nonzero set)

-- From the highest down, so that a large number with few bits takes few steps.
def bitsBefore (n : Nat) (found : List Nat) : List Nat :=
  if n = 0 then found else bitsBefore (dropHighest n) (n.log2 :: found)
termination_by n
decreasing_by exact dropHighest_lt (by assumption)

theorem mem_bitsBefore {n : Nat} {found : List Nat} {i : Nat} :
    i ∈ bitsBefore n found ↔ n.testBit i = true ∨ i ∈ found := by
  induction n, found using bitsBefore.induct with
  | case1 found => simp [bitsBefore]
  | case2 n found nonzero ih =>
      rw [bitsBefore, if_neg nonzero, ih, testBit_dropHighest, List.mem_cons]
      by_cases top : n.log2 = i
      · simp [← top, Nat.testBit_log2 nonzero]
      · simp [top, Ne.symm top]

theorem bitsBefore_increasing {n : Nat} {found : List Nat} (sorted : found.Pairwise (· < ·))
    (above : ∀ i ∈ found, ∀ j, n.testBit j = true → j < i) : (bitsBefore n found).Pairwise (· < ·) := by
  induction n, found using bitsBefore.induct with
  | case1 found => simpa [bitsBefore] using sorted
  | case2 n found nonzero ih =>
      rw [bitsBefore, if_neg nonzero]
      refine ih (List.pairwise_cons.mpr ⟨fun i member => ?_, sorted⟩) fun i member j set => ?_
      · exact above i member n.log2 (Nat.testBit_log2 nonzero)
      · have below := lt_log2_of_testBit_dropHighest nonzero set
        rcases List.mem_cons.mp member with rfl | old
        · exact below
        · exact Nat.lt_trans below (above i old n.log2 (Nat.testBit_log2 nonzero))

end Lookahead
