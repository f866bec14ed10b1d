import Lookahead.BitSet.Bits
import Lookahead.Symbol

set_option autoImplicit false

namespace Lookahead

class Indexed (α : Type) where
  index : α → Nat
  ofIndex : Nat → α
  index_ofIndex : ∀ i, index (ofIndex i) = i
  ofIndex_index : ∀ a, ofIndex (index a) = a

instance : Indexed Nat := ⟨id, id, fun _ => rfl, fun _ => rfl⟩

instance : Indexed Terminal := ⟨Terminal.index, Terminal.mk, fun _ => rfl, fun _ => rfl⟩

instance : Indexed Layout := ⟨Layout.index, Layout.mk, fun _ => rfl, fun _ => rfl⟩

instance : Indexed Nonterminal := ⟨Nonterminal.index, Nonterminal.mk, fun _ => rfl, fun _ => rfl⟩

-- The bits of one natural number: sets with the same elements are the same number, and no trace of how a set came
-- about is left in it.
structure BitSet (α : Type) where
  bits : Nat

abbrev TerminalSet := BitSet Terminal

abbrev LayoutSet := BitSet Layout

namespace BitSet

variable {α : Type}

instance : DecidableEq (BitSet α)
  | ⟨m⟩, ⟨n⟩ => decidable_of_iff (m = n) (by simp)

instance : EmptyCollection (BitSet α) := ⟨⟨0⟩⟩

instance : Inhabited (BitSet α) := ⟨∅⟩

instance : Union (BitSet α) := ⟨fun s t => ⟨s.bits ||| t.bits⟩⟩

variable [Indexed α]

instance : Membership α (BitSet α) := ⟨fun s a => s.bits.testBit (Indexed.index a) = true⟩

instance (a : α) (s : BitSet α) : Decidable (a ∈ s) := inferInstanceAs (Decidable (_ = true))

instance : HasSubset (BitSet α) := ⟨fun s t => ∀ a, a ∈ s → a ∈ t⟩

instance : Singleton α (BitSet α) := ⟨fun a => ⟨1 <<< Indexed.index a⟩⟩

def insert (s : BitSet α) (a : α) : BitSet α := s ∪ {a}

def ofList (as : List α) : BitSet α := as.foldl insert ∅

def toList (s : BitSet α) : List α :=
  (bitsBefore s.bits []).map Indexed.ofIndex

theorem mem_def {s : BitSet α} {a : α} : a ∈ s ↔ s.bits.testBit (Indexed.index a) = true := Iff.rfl

theorem index_injective {a b : α} (h : Indexed.index a = Indexed.index b) : a = b := by
  rw [← Indexed.ofIndex_index a, h, Indexed.ofIndex_index]

theorem ext {s t : BitSet α} (h : ∀ a, a ∈ s ↔ a ∈ t) : s = t := by
  obtain ⟨m⟩ := s
  obtain ⟨n⟩ := t
  congr 1
  apply Nat.eq_of_testBit_eq
  intro i
  have := h (Indexed.ofIndex i)
  rw [mem_def, mem_def, Indexed.index_ofIndex] at this
  exact Bool.eq_iff_iff.mpr this

@[simp] theorem not_mem_empty (a : α) : ¬ a ∈ (∅ : BitSet α) := by
  simp [mem_def, EmptyCollection.emptyCollection]

@[simp] theorem mem_union {s t : BitSet α} {a : α} : a ∈ s ∪ t ↔ a ∈ s ∨ a ∈ t := by
  simp [mem_def, Union.union]

@[simp] theorem mem_singleton {a b : α} : a ∈ ({b} : BitSet α) ↔ a = b := by
  rw [mem_def]
  show (1 <<< Indexed.index b).testBit _ = true ↔ _
  rw [testBit_oneBit, decide_eq_true_iff]
  exact ⟨fun h => (index_injective h).symm, fun h => h ▸ rfl⟩

@[simp] theorem mem_insert {s : BitSet α} {a b : α} : a ∈ s.insert b ↔ a ∈ s ∨ a = b := by
  simp [insert]

theorem mem_foldl_insert (as : List α) (s : BitSet α) (a : α) :
    a ∈ as.foldl insert s ↔ a ∈ s ∨ a ∈ as := by
  induction as generalizing s with
  | nil => simp
  | cons b as ih => simp [ih, or_assoc]

@[simp] theorem mem_ofList {as : List α} {a : α} : a ∈ ofList as ↔ a ∈ as := by
  simp [ofList, mem_foldl_insert]

theorem subset_refl (s : BitSet α) : s ⊆ s := fun _ member => member

theorem subset_antisymm {s t : BitSet α} (below : s ⊆ t) (above : t ⊆ s) : s = t :=
  ext fun a => ⟨below a, above a⟩

theorem union_eq_right_iff {s t : BitSet α} : s ∪ t = t ↔ s ⊆ t := by
  constructor
  · intro h a member
    exact h ▸ mem_union.mpr (.inl member)
  · intro h
    exact ext fun a => ⟨fun member => (mem_union.mp member).elim (h a) id, fun member => mem_union.mpr (.inr member)⟩

instance (s t : BitSet α) : Decidable (s ⊆ t) := decidable_of_iff (s ∪ t = t) union_eq_right_iff

@[simp] theorem mem_toList {s : BitSet α} {a : α} : a ∈ s.toList ↔ a ∈ s := by
  simp only [toList, List.mem_map, mem_bitsBefore, mem_def, List.not_mem_nil, or_false]
  constructor
  · rintro ⟨i, set, rfl⟩
    rwa [Indexed.index_ofIndex]
  · exact fun set => ⟨Indexed.index a, set, Indexed.ofIndex_index a⟩

theorem toList_increasing (s : BitSet α) :
    s.toList.Pairwise fun a b => Indexed.index a < Indexed.index b := by
  refine List.pairwise_map.mpr ?_
  simp only [Indexed.index_ofIndex]
  exact bitsBefore_increasing .nil (by simp)

end BitSet

end Lookahead
