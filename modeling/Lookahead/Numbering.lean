import Std.Data.TreeMap.Lemmas

set_option autoImplicit false

namespace Lookahead

structure Numbering (α : Type) [Ord α] where
  values : Array α
  numbers : Std.TreeMap α Nat
  numbers_iff : ∀ (a : α) (i : Nat), numbers[a]? = some i ↔ values[i]? = some a

namespace Numbering

variable {α : Type} [Ord α]

def size (s : Numbering α) : Nat := s.values.size

def number? (s : Numbering α) (a : α) : Option Nat := s.numbers[a]?

theorem number?_eq_some_iff (s : Numbering α) (a : α) (i : Nat) :
    s.number? a = some i ↔ s.values[i]? = some a := s.numbers_iff a i

def toList (s : Numbering α) : List α := s.values.toList

theorem nodup_toList (s : Numbering α) : s.toList.Nodup := by
  refine List.pairwise_iff_getElem.mpr fun i j hi hj less same => ?_
  have atI := (s.numbers_iff (s.toList[i]) i).mpr (by simp [toList] at hi ⊢)
  have atJ := (s.numbers_iff (s.toList[i]) j).mpr (by rw [same]; simp [toList] at hj ⊢)
  rw [atI, Option.some.injEq] at atJ
  omega

variable [Std.TransOrd α] [Std.LawfulEqOrd α]

def empty : Numbering α where
  values := #[]
  numbers := ∅
  numbers_iff := by simp

theorem insert_numbers_iff (values : Array α) (numbers : Std.TreeMap α Nat)
    (agree : ∀ (a : α) (i : Nat), numbers[a]? = some i ↔ values[i]? = some a) (a : α) (fresh : numbers[a]? = none)
    (b : α) (i : Nat) :
    (numbers.insert a values.size)[b]? = some i ↔ (values.push a)[i]? = some b := by
  rw [Std.TreeMap.getElem?_insert, Array.getElem?_push]
  by_cases last : i = values.size
  · subst last
    by_cases same : a = b
    · simp [same, Std.ReflCmp.compare_self]
    · simp [same, Std.LawfulEqCmp.compare_eq_iff_eq, agree]
  · by_cases same : a = b
    · subst same
      have absent : values[i]? ≠ some a := fun present => by simp [(agree a i).mpr present] at fresh
      simp only [Std.ReflCmp.compare_self, if_true, if_neg last, Option.some.injEq, absent, iff_false]
      exact Ne.symm last
    · simp [same, last, Std.LawfulEqCmp.compare_eq_iff_eq, agree]

def add (s : Numbering α) (a : α) : Numbering α :=
  match fresh : s.numbers[a]? with
  | some _ => s
  | none =>
      let number := s.values.size
      ⟨s.values.push a, s.numbers.insert a number,
        insert_numbers_iff s.values s.numbers s.numbers_iff a fresh⟩

def addAll (s : Numbering α) (as : List α) : Numbering α := as.foldl add s

def ofList (as : List α) : Numbering α := empty.addAll as

-- Adds the successors of the value numbered `i`, then those of each later one in turn, until all values
-- have been asked or there are more than `limit` of them.
def expand (next : α → List α) (limit : Nat) (s : Numbering α) (i : Nat) : Numbering α :=
  if h : i < s.values.size ∧ s.values.size ≤ limit then
    expand next limit (s.addAll (next s.values[i])) (i + 1)
  else s
termination_by limit - i
decreasing_by omega

/-- Everything reachable from `seeds`, as far as it is no more than `limit` values: a result of a
greater size is one where the search gave up. -/
def reach (next : α → List α) (limit : Nat) (seeds : List α) : Numbering α :=
  expand next limit (ofList seeds) 0

theorem mem_add {s : Numbering α} {a b : α} : b ∈ (s.add a).toList ↔ b ∈ s.toList ∨ b = a := by
  unfold add toList
  split
  · rename_i i known
    have member : a ∈ s.values := Array.mem_of_getElem? ((s.numbers_iff a i).mp known)
    constructor
    · exact .inl
    · rintro (old | rfl)
      · exact old
      · exact Array.mem_toList_iff.mpr member
  · simp

theorem mem_addAll {s : Numbering α} {as : List α} {b : α} :
    b ∈ (s.addAll as).toList ↔ b ∈ s.toList ∨ b ∈ as := by
  unfold addAll
  induction as generalizing s with
  | nil => simp
  | cons a as ih => simp [ih, mem_add, or_assoc]

@[simp] theorem mem_ofList {as : List α} {b : α} : b ∈ (ofList as).toList ↔ b ∈ as := by
  rw [ofList, mem_addAll]
  simp [empty, toList]

end Numbering

end Lookahead
