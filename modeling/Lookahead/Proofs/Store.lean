import Lookahead.BitSet.Store
import Mathlib.Data.List.Sort

set_option autoImplicit false

namespace Lookahead

open BitStore

-- What the operations of a store are documented to do.
class LawfulBitStore (σ : Type) [BitStore σ] : Prop where
  contains_new : ∀ i, contains (new : σ) i = false
  contains_withCapacity : ∀ capacity i, contains (withCapacity capacity : σ) i = false
  contains_ofIndices : ∀ indices i, contains (ofIndices indices : σ) i = true ↔ i ∈ indices
  contains_clear : ∀ (s : σ) i, contains (clear s) i = false
  contains_insert : ∀ (s : σ) i j, contains (insert s i).1 j = true ↔ contains s j = true ∨ j = i
  insert_missing : ∀ (s : σ) i, (insert s i).2 = !contains s i
  contains_union : ∀ (s t : σ) i, contains (union s t) i = (contains s i || contains t i)
  isSubset_iff : ∀ s t : σ, isSubset s t = true ↔ ∀ i, contains s i = true → contains t i = true
  isEmpty_iff : ∀ s : σ, isEmpty s = true ↔ ∀ i, contains s i = false
  -- The bits are looked through from the first to the last that there is room for.
  indices_scan : ∀ s : σ, ∃ room, (∀ i, contains s i = true → i < room) ∧ indices s = (List.range room).filter (contains s)

section

variable {σ : Type} [BitStore σ] [LawfulBitStore σ]

theorem mem_indices {s : σ} {i : Nat} : i ∈ indices s ↔ contains s i = true := by
  obtain ⟨room, inside, scan⟩ := LawfulBitStore.indices_scan s
  rw [scan, List.mem_filter, List.mem_range]
  exact ⟨And.right, fun set => ⟨inside i set, set⟩⟩

theorem indices_increasing (s : σ) : (indices s).Pairwise (· < ·) := by
  obtain ⟨room, -, scan⟩ := LawfulBitStore.indices_scan s
  exact scan ▸ List.pairwise_lt_range.filter _

theorem indices_eq_iff {s t : σ} : indices s = indices t ↔ ∀ i, contains s i = true ↔ contains t i = true := by
  constructor
  · intro same i
    rw [← mem_indices, same, mem_indices]
  · intro same
    refine (indices_increasing s).eq_of_mem_iff (indices_increasing t) fun i => ?_
    rw [mem_indices, mem_indices]
    exact same i

end

namespace BitSet

variable {α : Type} [Indexed α]

theorem contains_iff {s : BitSet α} {i : Nat} : contains s i = true ↔ Indexed.ofIndex i ∈ s := decide_eq_true_iff

theorem contains_eq_false_iff {s : BitSet α} {i : Nat} : contains s i = false ↔ Indexed.ofIndex i ∉ s := decide_eq_false_iff_not

theorem ofIndex_inj {i j : Nat} : (Indexed.ofIndex i : α) = Indexed.ofIndex j ↔ i = j := by
  constructor
  · intro same
    have same' := congrArg (Indexed.index (α := α)) same
    rwa [Indexed.index_ofIndex, Indexed.index_ofIndex] at same'
  · exact congrArg Indexed.ofIndex

theorem forall_ofIndex {p : α → Prop} : (∀ i, p (Indexed.ofIndex i)) ↔ ∀ a, p a :=
  ⟨fun all a => Indexed.ofIndex_index a ▸ all (Indexed.index a), fun all _ => all _⟩

instance : LawfulBitStore (BitSet α) where
  contains_new _ := contains_eq_false_iff.mpr (not_mem_empty _)
  contains_withCapacity _ _ := contains_eq_false_iff.mpr (not_mem_empty _)
  contains_ofIndices indices i := by
    refine contains_iff.trans (mem_ofList.trans ?_)
    simp [ofIndex_inj]
  contains_clear _ _ := contains_eq_false_iff.mpr (not_mem_empty _)
  contains_insert s i j := by
    refine contains_iff.trans (mem_insert.trans ?_)
    rw [ofIndex_inj, contains_iff]
  insert_missing _ _ := decide_not
  contains_union s t i := by
    rw [Bool.eq_iff_iff, Bool.or_eq_true, contains_iff, contains_iff, contains_iff]
    exact mem_union
  isSubset_iff s t := by
    refine decide_eq_true_iff.trans ?_
    simp only [contains_iff]
    exact (forall_ofIndex (p := fun a => a ∈ s → a ∈ t)).symm
  isEmpty_iff s := by
    refine decide_eq_true_iff.trans ?_
    simp only [contains_eq_false_iff]
    constructor
    · rintro rfl i
      exact not_mem_empty _
    · intro none
      have all : ∀ a, a ∉ s := forall_ofIndex.mp none
      exact ext fun a => iff_of_false (all a) (not_mem_empty a)
  indices_scan s := by
    have room {i : Nat} (set : contains s i = true) : i < s.bits.log2 + 1 := by
      rw [contains_iff, mem_def, Indexed.index_ofIndex] at set
      exact Nat.lt_succ_of_le (le_log2_of_testBit set)
    have increasing : (indices s).Pairwise (· < ·) := List.pairwise_map.mpr (toList_increasing s)
    refine ⟨s.bits.log2 + 1, fun i => room, increasing.eq_of_mem_iff (List.pairwise_lt_range.filter _) fun i => ?_⟩
    rw [List.mem_filter, List.mem_range, and_iff_right_of_imp room, contains_iff, ← mem_toList]
    constructor
    · intro listed
      obtain ⟨a, member, rfl⟩ := List.mem_map.mp listed
      rwa [Indexed.ofIndex_index]
    · exact fun member => List.mem_map.mpr ⟨_, member, Indexed.index_ofIndex i⟩

end BitSet

structure BitVector where
  bits : List Bool
deriving DecidableEq

namespace BitVector

def get (v : BitVector) (i : Nat) : Bool := v.bits[i]?.getD false

def set (v : BitVector) (i : Nat) : BitVector := ⟨(v.bits ++ List.replicate (i + 1 - v.bits.length) false).set i true⟩

def insert (v : BitVector) (i : Nat) : BitVector × Bool := if v.get i then (v, false) else (v.set i, true)

def union (v w : BitVector) : BitVector :=
  ⟨(List.range (max v.bits.length w.bits.length)).map fun i => v.get i || w.get i⟩

-- Whether each bit of the first is set in the second, which may end earlier.
def within : List Bool → List Bool → Bool
  | [], _ => true
  | b :: bits, [] => !b && within bits []
  | b :: bits, c :: others => (!b || c) && within bits others

instance : BitStore BitVector where
  new := ⟨[]⟩
  withCapacity capacity := ⟨List.replicate capacity false⟩
  ofIndices indices := indices.foldl (fun v i => (v.insert i).1) ⟨[]⟩
  clear v := ⟨v.bits.map fun _ => false⟩
  contains := get
  insert := insert
  union := union
  isSubset v w := within v.bits w.bits
  isEmpty v := v.bits.all (!·)
  indices v := (List.range v.bits.length).filter v.get

theorem get_iff {v : BitVector} {i : Nat} : v.get i = true ↔ v.bits[i]? = some true := by
  rw [get]
  cases v.bits[i]? <;> simp

theorem lt_of_get {v : BitVector} {i : Nat} (set : v.get i = true) : i < v.bits.length :=
  (List.getElem?_eq_some_iff.mp (get_iff.mp set)).1

theorem forall_get {v : BitVector} : (∀ i, v.get i = false) ↔ ∀ b ∈ v.bits, b = false := by
  constructor
  · intro none b member
    obtain ⟨i, there⟩ := List.mem_iff_getElem?.mp member
    have unset := none i
    rwa [get, there] at unset
  · intro none i
    rw [get]
    cases there : v.bits[i]? with
    | none => rfl
    | some b => exact none b (List.mem_of_getElem? there)

theorem get_set {v : BitVector} {i j : Nat} : (v.set i).get j = true ↔ v.get j = true ∨ j = i := by
  have room : i < (v.bits ++ List.replicate (i + 1 - v.bits.length) false).length := by
    rw [List.length_append, List.length_replicate]
    omega
  rw [get_iff, get_iff, set]
  by_cases same : j = i
  · subst same
    simp [List.getElem?_set_self room]
  · rw [List.getElem?_set_ne (Ne.symm same), or_iff_left same]
    by_cases inside : j < v.bits.length
    · rw [List.getElem?_append_left inside]
    · rw [List.getElem?_append_right (Nat.le_of_not_lt inside), List.getElem?_replicate,
        List.getElem?_eq_none (Nat.le_of_not_lt inside)]
      split <;> simp

theorem get_insert {v : BitVector} {i j : Nat} : (v.insert i).1.get j = true ↔ v.get j = true ∨ j = i := by
  by_cases there : v.get i = true
  · rw [insert, if_pos there, or_iff_left_of_imp fun same => same ▸ there]
  · rw [insert, if_neg there]
    exact get_set

theorem get_foldl_insert (indices : List Nat) (v : BitVector) (j : Nat) :
    (indices.foldl (fun v i => (v.insert i).1) v).get j = true ↔ v.get j = true ∨ j ∈ indices := by
  induction indices generalizing v with
  | nil => simp
  | cons i rest ih => rw [List.foldl_cons, ih, get_insert, List.mem_cons, or_assoc]

theorem within_iff (bits others : List Bool) :
    within bits others = true ↔ ∀ i, get ⟨bits⟩ i = true → get ⟨others⟩ i = true := by
  induction bits, others using within.induct with
  | case1 others => simp [within, get]
  | case2 b bits ih =>
      refine Iff.trans ?_ (Nat.and_forall_add_one (p := fun i => get ⟨b :: bits⟩ i = true → get ⟨[]⟩ i = true))
      rw [within, Bool.and_eq_true, ih]
      exact and_congr (by cases b <;> simp [get]) Iff.rfl
  | case3 b bits c others ih =>
      refine Iff.trans ?_ (Nat.and_forall_add_one (p := fun i => get ⟨b :: bits⟩ i = true → get ⟨c :: others⟩ i = true))
      rw [within, Bool.and_eq_true, ih]
      exact and_congr (by cases b <;> simp [get]) Iff.rfl

theorem get_union (v w : BitVector) (i : Nat) : (v.union w).get i = (v.get i || w.get i) := by
  by_cases inside : i < max v.bits.length w.bits.length
  · simp [get, union, inside]
  · have past : v.bits.length ≤ i := by omega
    have past' : w.bits.length ≤ i := by omega
    have beyond : (v.union w).bits.length ≤ i := by
      rw [union, List.length_map, List.length_range]
      omega
    rw [get, get, get, List.getElem?_eq_none past, List.getElem?_eq_none past', List.getElem?_eq_none beyond]
    rfl

instance : LawfulBitStore BitVector where
  contains_new _ := rfl
  contains_withCapacity _ _ := forall_get.mpr (fun _ member => List.eq_of_mem_replicate member) _
  contains_ofIndices indices i := (get_foldl_insert indices ⟨[]⟩ i).trans (or_iff_right (by simp [get]))
  contains_clear v := forall_get.mpr fun _ member => by
    obtain ⟨_, -, rfl⟩ := List.mem_map.mp member
    rfl
  contains_insert _ _ _ := get_insert
  insert_missing v i := by
    change (v.insert i).2 = !v.get i
    cases there : v.get i <;> simp [insert, there]
  contains_union := get_union
  isSubset_iff v w := within_iff v.bits w.bits
  isEmpty_iff v := by
    refine List.all_eq_true.trans (Iff.trans ?_ forall_get.symm)
    simp only [Bool.not_eq_true']
  indices_scan v := ⟨v.bits.length, fun _ => lt_of_get, rfl⟩

end BitVector

end Lookahead
