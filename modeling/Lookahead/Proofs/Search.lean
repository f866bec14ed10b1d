import Lookahead.Numbering
import Mathlib.Logic.Relation
import Mathlib.Data.List.Perm.Subperm

set_option autoImplicit false

namespace Lookahead

namespace Numbering

variable {α : Type} [Ord α]

theorem mem_toList_iff (s : Numbering α) (a : α) : a ∈ s.toList ↔ ∃ i : Nat, s.values[i]? = some a := by
  rw [toList, Array.mem_toList_iff, Array.mem_iff_getElem?]

theorem getElem?_of_isPrefix {s t : Numbering α} (kept : s.toList <+: t.toList) (i : Nat) (bound : i < s.size) :
    t.values[i]? = s.values[i]? := by
  obtain ⟨rest, same⟩ := kept
  rw [← Array.getElem?_toList, ← Array.getElem?_toList]
  change t.toList[i]? = s.toList[i]?
  rw [← same, List.getElem?_append_left (by simpa [toList, size] using bound)]

theorem number_unique (s : Numbering α) {a : α} {i j : Nat} (here : s.values[i]? = some a) (there : s.values[j]? = some a) :
    i = j := by
  have number := (number?_eq_some_iff s a i).mpr here
  rw [(number?_eq_some_iff s a j).mpr there, Option.some.injEq] at number
  exact number.symm

theorem number?_of_mem (s : Numbering α) (a : α) (member : a ∈ s.toList) :
    ∃ i, s.number? a = some i ∧ s.values[i]? = some a := by
  obtain ⟨i, found⟩ := (mem_toList_iff s a).mp member
  exact ⟨i, (number?_eq_some_iff s a i).mpr found, found⟩

variable [Std.TransOrd α] [Std.LawfulEqOrd α]

theorem prefix_add (s : Numbering α) (a : α) : s.toList <+: (s.add a).toList := by
  unfold add
  split
  · exact List.prefix_rfl
  · simp [toList]

theorem prefix_addAll (s : Numbering α) (as : List α) : s.toList <+: (s.addAll as).toList := by
  unfold addAll
  induction as generalizing s with
  | nil => exact List.prefix_rfl
  | cons a as ih => exact (prefix_add s a).trans (ih (s.add a))

variable (next : α → List α) (limit : Nat)

theorem prefix_expand (s : Numbering α) (i : Nat) : s.toList <+: (expand next limit s i).toList := by
  induction s, i using expand.induct next limit with
  | case1 s i bound ih =>
      rw [expand, dif_pos bound]
      exact (prefix_addAll s _).trans ih
  | case2 s i bound =>
      have same : expand next limit s i = s := by rw [expand, dif_neg bound]
      exact ⟨[], by rw [same, List.append_nil]⟩

theorem expand_induct (holds : α → Prop) (step : ∀ a, holds a → ∀ b ∈ next a, holds b)
    (s : Numbering α) (i : Nat) (start : ∀ a ∈ s.toList, holds a) :
    ∀ a ∈ (expand next limit s i).toList, holds a := by
  induction s, i using expand.induct next limit with
  | case1 s i bound ih =>
      rw [expand, dif_pos bound]
      apply ih
      intro a member
      rcases mem_addAll.mp member with old | fresh
      · exact start a old
      · exact step _ (start _ (by simp [toList])) a fresh
  | case2 s i bound =>
      rw [expand, dif_neg bound]
      exact start

-- The values before index i have been asked already, and what they answered is there.
theorem expand_closed (s : Numbering α) (i : Nat)
    (asked : ∀ j a, j < i → s.values[j]? = some a → ∀ b ∈ next a, b ∈ s.toList)
    (small : (expand next limit s i).size ≤ limit) :
    ∀ a ∈ (expand next limit s i).toList, ∀ b ∈ next a, b ∈ (expand next limit s i).toList := by
  induction s, i using expand.induct next limit with
  | case1 s i bound ih =>
      rw [expand, dif_pos bound] at small ⊢
      refine ih (fun j a before found b among => ?_) small
      have older : j < s.values.size := by omega
      have same : s.values[j]? = some a := (getElem?_of_isPrefix (prefix_addAll s _) j older).symm.trans found
      rcases Nat.lt_succ_iff_lt_or_eq.mp before with earlier | rfl
      · exact mem_addAll.mpr (.inl (asked j a earlier same b among))
      · have here : s.values[j] = a := by
          simpa [Array.getElem?_eq_getElem older] using same
        exact mem_addAll.mpr (.inr (by rw [here]; exact among))
  | case2 s i bound =>
      rw [expand, dif_neg bound] at small ⊢
      intro a member b among
      obtain ⟨j, found⟩ := (mem_toList_iff s a).mp member
      have inside := (Array.getElem?_eq_some_iff.mp found).1
      have before : j < i := by
        unfold size at small
        omega
      exact asked j a before found b among

variable {next limit} {seeds : List α}

theorem mem_reach_of_seed {a : α} (member : a ∈ seeds) : a ∈ (reach next limit seeds).toList :=
  (prefix_expand next limit (ofList seeds) 0).subset (mem_ofList.mpr member)

theorem reach_closed (small : (reach next limit seeds).size ≤ limit) {a b : α}
    (member : a ∈ (reach next limit seeds).toList) (among : b ∈ next a) :
    b ∈ (reach next limit seeds).toList :=
  expand_closed next limit (ofList seeds) 0 (fun _ _ before => absurd before (Nat.not_lt_zero _)) small
    a member b among

theorem reach_induct (holds : α → Prop) (step : ∀ a, holds a → ∀ b ∈ next a, holds b)
    (start : ∀ a ∈ seeds, holds a) : ∀ a ∈ (reach next limit seeds).toList, holds a :=
  expand_induct next limit holds step (ofList seeds) 0 fun a member => start a (mem_ofList.mp member)

theorem mem_reach_iff (small : (reach next limit seeds).size ≤ limit) (b : α) :
    b ∈ (reach next limit seeds).toList ↔
      ∃ a ∈ seeds, Relation.ReflTransGen (fun a b => b ∈ next a) a b := by
  constructor
  · refine reach_induct (fun b => ∃ a ∈ seeds, Relation.ReflTransGen (fun a b => b ∈ next a) a b)
      (fun c found d among => ?_) (fun a member => ⟨a, member, .refl⟩) b
    obtain ⟨a, member, path⟩ := found
    exact ⟨a, member, path.tail among⟩
  · rintro ⟨a, member, path⟩
    induction path with
    | refl => exact mem_reach_of_seed member
    | tail _ among ih => exact reach_closed small ih among

theorem size_reach_le (next : α → List α) (limit : Nat) (seeds range : List α)
    (inside : ∀ a ∈ seeds, a ∈ range) (kept : ∀ a ∈ range, ∀ b ∈ next a, b ∈ range) :
    (reach next limit seeds).size ≤ range.length := by
  have subset : (reach next limit seeds).toList ⊆ range :=
    reach_induct (· ∈ range) kept inside
  have bound := (List.subperm_of_subset (nodup_toList _) subset).length_le
  simpa [toList, size] using bound

end Numbering

end Lookahead
