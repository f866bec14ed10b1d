import Lookahead.BitSet.Session
import Lookahead.Proofs.Store
import Mathlib.Data.Finset.Dedup
import Mathlib.Data.Finset.Lattice.Lemmas
import Mathlib.Logic.Function.Basic

set_option autoImplicit false

namespace Lookahead

namespace SetStep

def effect (sets : Nat → Finset Nat) (s : Finset Nat) : SetStep → Finset Nat
  | withCapacity _ => ∅
  | collect indices => indices.toFinset
  | clear => ∅
  | clone source => sets source
  | insert index => {index} ∪ s
  | contains _ => s
  | union source => s ∪ sets source
  | isSubset _ => s
  | equals _ => s
  | isEmpty => s

def answer (sets : Nat → Finset Nat) (s : Finset Nat) : SetStep → Option Bool
  | withCapacity _ => none
  | collect _ => none
  | clear => none
  | clone _ => none
  | insert index => some (decide (index ∉ s))
  | contains index => some (decide (index ∈ s))
  | union source => some (decide (s ⊂ s ∪ sets source))
  | isSubset other => some (decide (s ⊆ sets other))
  | equals other => some (decide (s = sets other))
  | isEmpty => some (decide (s = ∅))

-- A step that asks no other than the first `n` sets, and for no number beyond the identifiers.
def Fits (n : Nat) : SetStep → Prop
  | withCapacity _ => True
  | collect indices => ∀ i ∈ indices, i ≤ IdSet.indexLimit
  | clear => True
  | clone source => source < n
  | insert index => index ≤ IdSet.indexLimit
  | contains index => index ≤ IdSet.indexLimit
  | union source => source < n
  | isSubset other => other < n
  | equals other => other < n
  | isEmpty => True

def replace (sets : Nat → Finset Nat) (k : Nat) (step : SetStep) : Nat → Finset Nat :=
  Function.update sets k (step.effect sets (sets k))

def replay (sets : Nat → Finset Nat) : List (Nat × SetStep) → Nat → Finset Nat
  | [] => sets
  | (k, step) :: rest => replay (replace sets k step) rest

def answers (sets : Nat → Finset Nat) : List (Nat × SetStep) → List (Option Bool)
  | [] => []
  | (k, step) :: rest => step.answer sets (sets k) :: answers (replace sets k step) rest

theorem replay_append (sets : Nat → Finset Nat) (steps : List (Nat × SetStep)) (k : Nat) (step : SetStep) :
    replay sets (steps ++ [(k, step)]) = replace (replay sets steps) k step := by
  induction steps generalizing sets with
  | nil => rfl
  | cons entry rest ih => exact ih (replace sets entry.1 entry.2)

end SetStep

namespace IdSet

theorem element_eq {index : Nat} (bounded : index ≤ indexLimit) : element index = .ok index := if_pos bounded

theorem elements_eq {indices : List Nat} (bounded : ∀ i ∈ indices, i ≤ indexLimit) : indices.mapM element = .ok indices :=
  (mapM_eq_map (h := id) indices fun i member => element_eq (bounded i member)).trans (by rw [List.map_id])

end IdSet

section

variable {σ : Type} [BitStore σ]

structure Represents (s : σ) (elements : Finset Nat) : Prop where
  bounded : ∀ i ∈ elements, i ≤ IdSet.indexLimit
  contains : ∀ i, BitStore.contains s i = true ↔ i ∈ elements

namespace Represents

theorem contains_eq {s : σ} {elements : Finset Nat} (represents : Represents s elements) (i : Nat) :
    BitStore.contains s i = decide (i ∈ elements) := by
  rw [Bool.eq_iff_iff, represents.contains, decide_eq_true_iff]

theorem of_no_bit {s : σ} (none : ∀ i, BitStore.contains s i = false) : Represents s ∅ where
  bounded i member := absurd member (Finset.notMem_empty i)
  contains i := by simp [none i]

variable [LawfulBitStore σ]

theorem ofIndices {indices : List Nat} (bounded : ∀ i ∈ indices, i ≤ IdSet.indexLimit) :
    Represents (BitStore.ofIndices indices : σ) indices.toFinset where
  bounded i member := bounded i (List.mem_toFinset.mp member)
  contains i := (LawfulBitStore.contains_ofIndices indices i).trans List.mem_toFinset.symm

variable {s t : σ} {elements others : Finset Nat} (represents : Represents s elements)
include represents

theorem insert {index : Nat} (bounded : index ≤ IdSet.indexLimit) :
    Represents (BitStore.insert s index).1 ({index} ∪ elements) where
  bounded i member := by
    rcases Finset.mem_union.mp member with new | old
    · exact Finset.mem_singleton.mp new ▸ bounded
    · exact represents.bounded i old
  contains i := by
    rw [LawfulBitStore.contains_insert, represents.contains, Finset.mem_union, Finset.mem_singleton, or_comm]

theorem iter : ∃ listing, IdSet.iter s = .ok listing ∧ listing.Pairwise (· < ·) ∧ ∀ i, i ∈ listing ↔ i ∈ elements := by
  have listed (i : Nat) : i ∈ BitStore.indices s ↔ i ∈ elements := mem_indices.trans (represents.contains i)
  exact ⟨BitStore.indices s, IdSet.elements_eq fun i member => represents.bounded i ((listed i).mp member),
    indices_increasing s, listed⟩

theorem isEmpty_eq : BitStore.isEmpty s = decide (elements = ∅) := by
  rw [Bool.eq_iff_iff, LawfulBitStore.isEmpty_iff, decide_eq_true_iff, Finset.eq_empty_iff_forall_notMem]
  simp only [represents.contains_eq, decide_eq_false_iff_not]

variable (represents' : Represents t others)
include represents'

theorem isSubset_eq : BitStore.isSubset s t = decide (elements ⊆ others) := by
  rw [Bool.eq_iff_iff, LawfulBitStore.isSubset_iff, decide_eq_true_iff]
  simp only [represents.contains, represents'.contains]
  rfl

theorem equals_eq : IdSet.equals s t = decide (elements = others) := by
  rw [Bool.eq_iff_iff, IdSet.equals, decide_eq_true_iff, decide_eq_true_iff, indices_eq_iff, Finset.ext_iff]
  simp only [represents.contains, represents'.contains]

theorem unionWith : Represents (IdSet.unionWith s t).1 (elements ∪ others) ∧
    (IdSet.unionWith s t).2 = decide (elements ⊂ elements ∪ others) := by
  rw [IdSet.unionWith, represents'.isSubset_eq represents]
  by_cases inside : others ⊆ elements
  · rw [if_pos (decide_eq_true inside), Finset.union_eq_left.mpr inside]
    exact ⟨represents, (decide_eq_false (ssubset_irrefl _)).symm⟩
  · rw [if_neg (by simpa using inside)]
    refine ⟨⟨fun i member => ?_, fun i => ?_⟩, (decide_eq_true ?_).symm⟩
    · exact (Finset.mem_union.mp member).elim (represents.bounded i) (represents'.bounded i)
    · rw [LawfulBitStore.contains_union, Bool.or_eq_true, represents.contains, represents'.contains, Finset.mem_union]
    · exact Finset.ssubset_iff_subset_ne.mpr ⟨Finset.subset_union_left, fun same => inside (Finset.union_eq_left.mp same.symm)⟩

end Represents

end

namespace SetStep

variable {σ : Type}

theorem lookup_of_lt {sets : Array σ} {k : Nat} (bound : k < sets.size) : ∃ s, sets[k]? = some s ∧ lookup sets k = .ok s :=
  ⟨sets[k], Array.getElem?_eq_getElem bound, by rw [lookup, Array.getElem?_eq_getElem bound]⟩

variable [BitStore σ]

def Represented (sets : Array σ) (elements : Nat → Finset Nat) : Prop :=
  ∀ k s, sets[k]? = some s → Represents s (elements k)

variable [LawfulBitStore σ]

section

variable {sets : Array σ} {elements : Nat → Finset Nat} (represented : Represented sets elements)
include represented

theorem act_refines {k : Nat} {s : σ} (here : sets[k]? = some s) (step : SetStep) (fits : step.Fits sets.size) :
    ∃ s', step.act sets s = .ok (s', step.answer elements (elements k)) ∧ Represents s' (step.effect elements (elements k)) := by
  have represents := represented k s here
  -- What a step asks another set, that set can tell.
  have asked (j : Nat) (bound : j < sets.size) : ∃ t, lookup sets j = .ok t ∧ Represents t (elements j) := by
    obtain ⟨t, there, found⟩ := lookup_of_lt bound
    exact ⟨t, found, represented j t there⟩
  cases step with
  | withCapacity capacity => exact ⟨_, rfl, .of_no_bit (LawfulBitStore.contains_withCapacity capacity)⟩
  | collect indices =>
      refine ⟨BitStore.ofIndices indices, ?_, .ofIndices fits⟩
      rw [act, IdSet.elements_eq fits]
      rfl
  | clear => exact ⟨_, rfl, .of_no_bit (LawfulBitStore.contains_clear s)⟩
  | clone source =>
      obtain ⟨t, found, other⟩ := asked source fits
      refine ⟨t, ?_, other⟩
      rw [act, found]
      rfl
  | insert index =>
      have missing : (BitStore.insert s index).2 = decide (index ∉ elements k) := by
        rw [LawfulBitStore.insert_missing, represents.contains_eq, decide_not]
      refine ⟨(BitStore.insert s index).1, ?_, represents.insert fits⟩
      rw [act, IdSet.element_eq fits, answer, ← missing]
      rfl
  | contains index =>
      refine ⟨s, ?_, represents⟩
      rw [act, IdSet.element_eq fits, answer, ← represents.contains_eq]
      rfl
  | union source =>
      obtain ⟨t, found, other⟩ := asked source fits
      obtain ⟨united, grown⟩ := represents.unionWith other
      refine ⟨(IdSet.unionWith s t).1, ?_, united⟩
      rw [act, found, answer, ← grown]
      rfl
  | isSubset other =>
      obtain ⟨t, found, represents'⟩ := asked other fits
      refine ⟨s, ?_, represents⟩
      rw [act, found, answer, ← represents.isSubset_eq represents']
      rfl
  | equals other =>
      obtain ⟨t, found, represents'⟩ := asked other fits
      refine ⟨s, ?_, represents⟩
      rw [act, found, answer, ← represents.equals_eq represents']
      rfl
  | isEmpty =>
      refine ⟨s, ?_, represents⟩
      rw [act, answer, ← represents.isEmpty_eq]
      rfl

theorem run_refines {k : Nat} (bound : k < sets.size) (step : SetStep) (fits : step.Fits sets.size) :
    ∃ sets', step.run sets k = .ok (sets', step.answer elements (elements k)) ∧ sets'.size = sets.size ∧
      Represented sets' (replace elements k step) ∧ ∀ j, j ≠ k → sets'[j]? = sets[j]? := by
  obtain ⟨s, here, found⟩ := lookup_of_lt bound
  obtain ⟨s', acted, represents⟩ := act_refines represented here step fits
  have frame : ∀ j, j ≠ k → (sets.setIfInBounds k s')[j]? = sets[j]? := fun j other =>
    Array.getElem?_setIfInBounds_ne other.symm
  refine ⟨sets.setIfInBounds k s', ?_, Array.size_setIfInBounds, fun j t there => ?_, frame⟩
  · rw [run, found]
    simp only [bind, Except.bind, acted, pure, Except.pure]
  · by_cases same : j = k
    · subst same
      rw [Array.getElem?_setIfInBounds_self_of_lt bound, Option.some.injEq] at there
      rw [replace, Function.update_self]
      exact there ▸ represents
    · rw [replace, Function.update_of_ne same]
      exact represented j t ((frame j same).symm.trans there)

theorem runAll_refines (steps : List (Nat × SetStep)) (fits : ∀ entry ∈ steps, entry.1 < sets.size ∧ entry.2.Fits sets.size) :
    ∃ sets', runAll sets steps = .ok (sets', answers elements steps) ∧ sets'.size = sets.size ∧
      Represented sets' (replay elements steps) := by
  induction steps generalizing sets elements with
  | nil => exact ⟨sets, rfl, rfl, represented⟩
  | cons entry rest ih =>
      obtain ⟨k, step⟩ := entry
      obtain ⟨bound, fits'⟩ := fits _ List.mem_cons_self
      obtain ⟨sets', ran, size, represented', -⟩ := run_refines represented bound step fits'
      obtain ⟨sets'', ranAll, size', represented''⟩ := ih represented' fun entry member =>
        size ▸ fits entry (List.mem_cons_of_mem _ member)
      refine ⟨sets'', ?_, size'.trans size, represented''⟩
      rw [runAll, ran]
      simp only [bind, Except.bind, ranAll, pure, Except.pure]
      rfl

end

theorem represented_fresh (n : Nat) : Represented (Array.replicate n BitStore.new : Array σ) fun _ => ∅ := by
  intro k s here
  rw [Array.getElem?_replicate] at here
  split at here
  · cases here
    exact .of_no_bit LawfulBitStore.contains_new
  · cases here

theorem runAll_refines_finite_sets (n : Nat) (steps : List (Nat × SetStep))
    (fits : ∀ entry ∈ steps, entry.1 < n ∧ entry.2.Fits n) :
    ∃ sets : Array σ, runAll (Array.replicate n BitStore.new) steps = .ok (sets, answers (fun _ => ∅) steps) ∧
      sets.size = n ∧ Represented sets (replay (fun _ => ∅) steps) ∧
      (∀ k s, sets[k]? = some s → ∃ listing, IdSet.iter s = .ok listing ∧ listing.Pairwise (· < ·) ∧
        ∀ i, i ∈ listing ↔ i ∈ replay (fun _ => ∅) steps k) ∧
      ∀ k step, k < n → step.Fits n →
        ∃ sets', step.run sets k = .ok (sets', step.answer (replay (fun _ => ∅) steps) (replay (fun _ => ∅) steps k)) ∧
          Represented sets' (replay (fun _ => ∅) (steps ++ [(k, step)])) ∧ ∀ j, j ≠ k → sets'[j]? = sets[j]? := by
  have size : (Array.replicate n (BitStore.new : σ)).size = n := Array.size_replicate
  obtain ⟨sets, ran, same, represented⟩ := runAll_refines (represented_fresh n) steps (size.symm ▸ fits)
  have size' : sets.size = n := same.trans size
  refine ⟨sets, ran, size', represented, fun k s here => (represented k s here).iter, fun k step bound fits' => ?_⟩
  obtain ⟨sets', answered, -, represented', frame⟩ := run_refines represented (size'.symm ▸ bound) step (size'.symm ▸ fits')
  exact ⟨sets', answered, replay_append _ steps k step ▸ represented', frame⟩

def growth : List (Nat × SetStep) :=
  [(0, .withCapacity 64), (0, .insert 1), (0, .insert 3), (1, .collect [3]), (0, .union 1), (0, .union 2), (1, .insert 2),
    (0, .union 1), (2, .collect [3, 1, 2, 3]), (0, .equals 2), (1, .isSubset 0), (1, .clear), (1, .isEmpty), (0, .contains 2)]

theorem runAll_refines_finite_sets_growth : (∀ entry ∈ growth, entry.1 < 3 ∧ entry.2.Fits 3) ∧
    ∃ (sets : Array BitVector) (s : BitVector), runAll (Array.replicate 3 BitStore.new) growth = .ok (sets,
        [none, some true, some true, none, some false, some false, some true, some true, none, some true, some true, none,
          some true, some true]) ∧
      sets[0]? = some s ∧ IdSet.iter s = .ok [1, 2, 3] := by
  have fits : ∀ entry ∈ growth, entry.1 < 3 ∧ entry.2.Fits 3 := by
    simp [growth, Fits, IdSet.indexLimit]
  obtain ⟨sets, ran, size, -, listed, -⟩ := runAll_refines_finite_sets (σ := BitVector) 3 growth fits
  have here : sets[0]? = some sets[0] := Array.getElem?_eq_getElem (by omega)
  obtain ⟨listing, answered, increasing, members⟩ := listed 0 _ here
  have elements : replay (fun _ => ∅) growth 0 = {1, 2, 3} := by decide +kernel
  obtain rfl : listing = [1, 2, 3] := by
    refine increasing.eq_of_mem_iff (by decide) fun i => ?_
    rw [members, elements]
    simp
  exact ⟨fits, sets, sets[0], ran, here, answered⟩

end SetStep

end Lookahead
