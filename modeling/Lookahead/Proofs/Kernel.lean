import Lookahead.Automaton.Collection
import Lookahead.Proofs.Search
import Lookahead.Proofs.WellFormed

set_option autoImplicit false

namespace Lookahead

namespace Numbering

variable {α : Type} [Ord α] [Std.TransOrd α] [Std.LawfulEqOrd α]

theorem toList_add_of_mem (s : Numbering α) (a : α) (known : a ∈ s.toList) : s.add a = s := by
  obtain ⟨i, found⟩ := (mem_toList_iff s a).mp known
  have number : s.numbers[a]? = some i := (s.numbers_iff a i).mpr found
  unfold add
  split
  · rfl
  · rename_i unknown
    simp [number] at unknown

theorem toList_add_of_not_mem (s : Numbering α) (a : α) (fresh : a ∉ s.toList) :
    (s.add a).toList = s.toList ++ [a] := by
  unfold add
  split
  · rename_i i known
    exact absurd ((mem_toList_iff s a).mpr ⟨i, (s.numbers_iff a i).mp known⟩) fresh
  · simp [toList]

theorem toList_addAll_of_nodup (s : Numbering α) (as : List α) (distinct : (s.toList ++ as).Nodup) :
    (s.addAll as).toList = s.toList ++ as := by
  induction as generalizing s with
  | nil => simp [addAll]
  | cons a as ih =>
      have fresh : a ∉ s.toList := fun member =>
        (List.nodup_append.mp distinct).2.2 a member a List.mem_cons_self rfl
      have grown := toList_add_of_not_mem s a fresh
      have rest := ih (s.add a) (by rw [grown, List.append_assoc]; exact distinct)
      rw [grown, List.append_assoc] at rest
      exact rest

theorem toList_ofList_of_nodup (as : List α) (distinct : as.Nodup) : (ofList as).toList = as :=
  toList_addAll_of_nodup (empty : Numbering α) as distinct

theorem size_ofList_of_nodup (as : List α) (nodup : as.Nodup) : (ofList as).size = as.length :=
  congrArg List.length (toList_ofList_of_nodup as nodup)

theorem prefix_ofList_append (as bs : List α) (distinct : as.Nodup) : as <+: (ofList (as ++ bs)).toList := by
  have split : ofList (as ++ bs) = (ofList as).addAll bs := List.foldl_append
  have kept := prefix_addAll (ofList as) bs
  rwa [toList_ofList_of_nodup as distinct, ← split] at kept

end Numbering

def Item.Increasing (items : List Item) : Prop := items.Pairwise fun a b => compare a b = .lt

theorem Item.Increasing.nodup {items : List Item} (sorted : Increasing items) : items.Nodup :=
  List.Pairwise.imp (fun {a b} less same => by
    have equal : compare b b = .eq := Std.ReflCmp.compare_self
    rw [same, equal] at less
    cases less) sorted

theorem Item.Increasing.ext {as bs : List Item} (left : Increasing as) (right : Increasing bs)
    (same : ∀ item, item ∈ as ↔ item ∈ bs) : as = bs := by
  refine List.Perm.eq_of_pairwise (fun a b _ _ less more => ?_) left right
    ((List.perm_ext_iff_of_nodup left.nodup right.nodup).mpr same)
  rw [Std.OrientedCmp.gt_of_lt more] at less
  cases less

theorem Item.advance_injective : Function.Injective advance := by
  rintro ⟨id, i⟩ ⟨id', j⟩ same
  simp only [advance, mk.injEq, Nat.add_right_cancel_iff] at same ⊢
  exact same

theorem insertByItem_perm (a : Nat × Item) (as : List (Nat × Item)) : (insertByItem a as).Perm (a :: as) := by
  induction as with
  | nil => exact .refl _
  | cons b rest ih =>
      rw [insertByItem]
      split
      · exact (ih.cons b).trans (.swap a b rest)
      · exact .refl _

theorem sortByItem_perm (as : List (Nat × Item)) : (sortByItem as).Perm as := by
  induction as with
  | nil => exact .refl _
  | cons a rest ih => exact (insertByItem_perm a (sortByItem rest)).trans (ih.cons a)

theorem insertByItem_increasing (a : Nat × Item) (as : List (Nat × Item)) (fresh : a.2 ∉ as.map Prod.snd)
    (sorted : Item.Increasing (as.map Prod.snd)) : Item.Increasing ((insertByItem a as).map Prod.snd) := by
  induction as with
  | nil => simp [insertByItem, Item.Increasing]
  | cons b rest ih =>
      obtain ⟨least, others⟩ := List.pairwise_cons.mp sorted
      have different : a.2 ≠ b.2 := fun same => fresh (by simp [same])
      rw [insertByItem]
      split
      · rename_i less
        refine List.pairwise_cons.mpr ⟨fun c member => ?_, ih (fun inside => fresh (by simp [inside])) others⟩
        rcases List.mem_cons.mp (((insertByItem_perm a rest).map Prod.snd).subset member) with rfl | inside
        · exact Ordering.isLT_iff_eq_lt.mp less
        · exact least c inside
      · rename_i notLess
        have before : compare a.2 b.2 = .lt := by
          cases order : compare a.2 b.2 with
          | lt => rfl
          | eq => exact absurd (Std.LawfulEqOrd.eq_of_compare order) different
          | gt => exact absurd (Ordering.isLT_iff_eq_lt.mpr (Std.OrientedCmp.lt_of_gt order)) notLess
        refine List.pairwise_cons.mpr ⟨fun c member => ?_, sorted⟩
        rcases List.mem_cons.mp member with rfl | inside
        · exact before
        · exact Std.TransCmp.lt_trans before (least c inside)

theorem sortByItem_increasing (as : List (Nat × Item)) (distinct : (as.map Prod.snd).Nodup) :
    Item.Increasing ((sortByItem as).map Prod.snd) := by
  induction as with
  | nil => exact .nil
  | cons a rest ih =>
      obtain ⟨fresh, others⟩ := List.nodup_cons.mp distinct
      refine insertByItem_increasing a (sortByItem rest) (fun member => fresh ?_) (ih others)
      exact ((sortByItem_perm rest).map Prod.snd).subset member

namespace Grammar

variable {g : Grammar}

theorem mem_entries {n : Nonterminal} {item : Item} :
    item ∈ g.entries n ↔ ∃ id p, g.production? id = some p ∧ p.left = n ∧ item = ⟨id, 0⟩ := by
  simp only [entries, List.mem_map, List.mem_filter, mem_productionIds, Option.any_eq_true, decide_eq_true_eq]
  constructor
  · rintro ⟨id, ⟨-, p, found, left⟩, rfl⟩
    exact ⟨id, p, found, left, rfl⟩
  · rintro ⟨id, p, found, left, rfl⟩
    exact ⟨id, ⟨⟨p, found⟩, p, found, left⟩, rfl⟩

def Opens (g : Grammar) (item entry : Item) : Prop := entry ∈ g.opens item

theorem opens_iff {item entry : Item} :
    g.Opens item entry ↔ ∃ n, g.symbolAfterDot? item = some (.nonterminal n) ∧ entry ∈ g.entries n := by
  unfold Opens opens
  split
  · rename_i n after
    simp [after]
  · rename_i other
    simp only [List.not_mem_nil, false_iff]
    rintro ⟨n, after, -⟩
    exact other n after

-- There is one entry for each production, so the search among them does not give up.
theorem size_entryClosure_le (n : Nonterminal) :
    (Numbering.reach g.opens (g.rules.size + 1) (g.entries n)).size ≤ g.rules.size + 1 := by
  have entered : ∀ m, ∀ entry ∈ g.entries m, entry ∈ g.productionIds.map (Item.mk · 0) := by
    intro m entry member
    obtain ⟨id, p, found, -, rfl⟩ := mem_entries.mp member
    exact List.mem_map_of_mem (mem_productionIds.mpr ⟨p, found⟩)
  have bound := Numbering.size_reach_le g.opens (g.rules.size + 1) (g.entries n)
    (g.productionIds.map (Item.mk · 0)) (entered n) fun item _ entry step => by
      obtain ⟨m, -, member⟩ := opens_iff.mp step
      exact entered m entry member
  simpa [productionIds] using bound

theorem mem_entryClosure {n : Nonterminal} {item : Item} :
    item ∈ g.entryClosure n ↔ ∃ entry ∈ g.entries n, Relation.ReflTransGen g.Opens entry item := by
  rw [entryClosure, Numbering.mem_reach_iff (size_entryClosure_le n)]
  rfl

theorem getD_closures {n : Nonterminal} (known : g.Knows (.nonterminal n)) : g.closures.getD n.index [] = g.entryClosure n := by
  have bound : n.index < g.nonterminals.size := known
  simp [closures, Array.getD, bound]

theorem WellFormed.knows_symbolAfterDot (wf : g.WellFormed) {item : Item} {x : Symbol}
    (after : g.symbolAfterDot? item = some x) : g.Knows x := by
  obtain ⟨p, found, at'⟩ := Option.bind_eq_some_iff.mp after
  exact wf.knows_right found (Array.mem_of_getElem? at')

theorem WellFormed.mem_openedBy (wf : g.WellFormed) {item entry : Item} :
    entry ∈ g.openedBy g.closures item ↔ Relation.TransGen g.Opens item entry := by
  rw [Relation.TransGen.head'_iff]
  unfold openedBy
  split
  · rename_i n after
    rw [getD_closures (wf.knows_symbolAfterDot after), mem_entryClosure]
    constructor
    · rintro ⟨first, member, path⟩
      exact ⟨first, opens_iff.mpr ⟨n, after, member⟩, path⟩
    · rintro ⟨first, step, path⟩
      obtain ⟨m, after', member⟩ := opens_iff.mp step
      rw [after, Option.some.injEq, Symbol.nonterminal.injEq] at after'
      exact ⟨first, after' ▸ member, path⟩
  · rename_i other
    simp only [List.not_mem_nil, false_iff]
    rintro ⟨first, step, -⟩
    obtain ⟨n, after, -⟩ := opens_iff.mp step
    exact other n after

theorem WellFormed.mem_stateItems (wf : g.WellFormed) {kernel : List Item} {item : Item} :
    item ∈ g.stateItems g.closures kernel ↔ ∃ k ∈ kernel, Relation.ReflTransGen g.Opens k item := by
  rw [stateItems, Numbering.mem_ofList, List.mem_append, List.mem_flatMap]
  constructor
  · rintro (inside | ⟨k, member, opened⟩)
    · exact ⟨item, inside, .refl⟩
    · exact ⟨k, member, (wf.mem_openedBy.mp opened).to_reflTransGen⟩
  · rintro ⟨k, member, path⟩
    rcases Relation.reflTransGen_iff_eq_or_transGen.mp path with rfl | steps
    · exact .inl member
    · exact .inr ⟨k, member, wf.mem_openedBy.mpr steps⟩

theorem WellFormed.kernel_or_opened (wf : g.WellFormed) {kernel : List Item} {item : Item}
    (member : item ∈ g.stateItems g.closures kernel) : item ∈ kernel ∨ ∃ k, g.Opens k item := by
  obtain ⟨k, among, path⟩ := wf.mem_stateItems.mp member
  cases Relation.ReflTransGen.cases_tail path with
  | inl same => exact .inl (same ▸ among)
  | inr opened =>
      obtain ⟨j, -, step⟩ := opened
      exact .inr ⟨j, step⟩

theorem prefix_stateItems (closures : Array (List Item)) {kernel : List Item} (distinct : kernel.Nodup) :
    kernel <+: g.stateItems closures kernel :=
  Numbering.prefix_ofList_append _ _ distinct

theorem moveSymbol?_eq_some_iff {item : Item} {x : Symbol} :
    g.moveSymbol? item = some x ↔ g.symbolAfterDot? item = some x ∧ x ≠ .terminal .endOfInput := by
  simp [moveSymbol?, Option.filter_eq_some_iff]

theorem mem_shifts {items : List Item} {shift : Shift} (among : shift ∈ g.shifts items) (i : Nat) (dest : Item) :
    (i, dest) ∈ shift.moved ↔
      ∃ item, items[i]? = some item ∧ g.moveSymbol? item = some shift.symbol ∧ dest = item.advance := by
  simp only [shifts, List.mem_map] at among
  obtain ⟨x, -, rfl⟩ := among
  rw [(sortByItem_perm _).mem_iff]
  simp only [List.mem_map, List.mem_filter, List.mem_filterMap, Option.map_eq_some_iff, decide_eq_true_eq]
  constructor
  · rintro ⟨_, ⟨⟨⟨item, j⟩, member, y, move, rfl⟩, same⟩, pair⟩
    obtain ⟨rfl, rfl⟩ := Prod.mk.inj pair
    exact ⟨item, List.mk_mem_zipIdx_iff_getElem?.mp member, same ▸ move, rfl⟩
  · rintro ⟨item, at', move, rfl⟩
    exact ⟨(x, i, item.advance), ⟨⟨(item, i), List.mk_mem_zipIdx_iff_getElem?.mpr at', x, move, rfl⟩, rfl⟩, rfl⟩

theorem exists_shift_iff {items : List Item} {x : Symbol} :
    (∃ shift ∈ g.shifts items, shift.symbol = x) ↔ ∃ item ∈ items, g.moveSymbol? item = some x := by
  simp only [shifts, List.mem_map, exists_exists_and_eq_and, Numbering.mem_ofList,
    List.mem_filterMap, Option.map_eq_some_iff]
  constructor
  · rintro ⟨_, ⟨⟨item, i⟩, member, y, move, rfl⟩, rfl⟩
    exact ⟨item, List.fst_mem_of_mem_zipIdx member, move⟩
  · rintro ⟨item, member, move⟩
    obtain ⟨i, at'⟩ := List.mem_iff_getElem?.mp member
    exact ⟨_, ⟨(item, i), List.mk_mem_zipIdx_iff_getElem?.mpr at', x, move, rfl⟩, rfl⟩

theorem mem_kernel_of_mem_shifts {items : List Item} {shift : Shift} (among : shift ∈ g.shifts items) (dest : Item) :
    dest ∈ shift.kernel ↔ ∃ item ∈ items, g.moveSymbol? item = some shift.symbol ∧ dest = item.advance := by
  simp only [Shift.kernel, List.mem_map, Prod.exists, exists_eq_right, mem_shifts among]
  constructor
  · rintro ⟨i, item, at', move, rfl⟩
    exact ⟨item, List.mem_of_getElem? at', move, rfl⟩
  · rintro ⟨item, member, move, rfl⟩
    obtain ⟨i, at'⟩ := List.mem_iff_getElem?.mp member
    exact ⟨i, item, at', move, rfl⟩

theorem kernel_increasing {items : List Item} (distinct : items.Nodup) {shift : Shift}
    (among : shift ∈ g.shifts items) : Item.Increasing shift.kernel := by
  simp only [shifts, List.mem_map] at among
  obtain ⟨x, -, rfl⟩ := among
  apply sortByItem_increasing
  have apart : items.zipIdx.Pairwise fun a b => a.1 ≠ b.1 := by
    have firsts : (items.zipIdx.map Prod.fst).Nodup := by rwa [List.zipIdx_map_fst]
    exact List.pairwise_map.mp firsts
  rw [List.map_map]
  refine List.pairwise_map.mpr (List.Pairwise.filter _ (List.Pairwise.filterMap _ ?_ apart))
  rintro ⟨item, i⟩ ⟨other, j⟩ different _ first _ second
  obtain ⟨x, -, rfl⟩ := Option.map_eq_some_iff.mp first
  obtain ⟨y, -, rfl⟩ := Option.map_eq_some_iff.mp second
  exact fun same => different (Item.advance_injective same)

end Grammar

end Lookahead
