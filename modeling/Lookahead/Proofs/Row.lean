import Lookahead.Proofs.Outlook
import Lookahead.Proofs.Rest
import Mathlib.Data.List.ProdSigma

set_option autoImplicit false

namespace Lookahead

namespace Row

theorem cell_merge (row : Row) (j : Nat) (c : Cell) (i : Nat) :
    (row.merge j c).cell i = if i = j ∧ j < row.cells.size then row.cell i ∪ c else row.cell i := by
  unfold merge cell
  rw [Array.getD_eq_getD_getElem?, Array.getD_eq_getD_getElem?, Array.getElem?_modify]
  by_cases same : j = i
  · subst same
    by_cases inside : j < row.cells.size <;> simp [inside]
  · simp [same, Ne.symm same]

theorem size_merge (row : Row) (j : Nat) (c : Cell) : (row.merge j c).cells.size = row.cells.size := by
  simp [merge]

theorem mem_cell_merge {row : Row} {j i : Nat} {c : Cell} {x : Trait} :
    x ∈ (row.merge j c).cell i ↔ x ∈ row.cell i ∨ (i = j ∧ j < row.cells.size) ∧ x ∈ c := by
  rw [cell_merge]
  by_cases here : i = j ∧ j < row.cells.size
  · rw [if_pos here, Cell.mem_union]
    simp [here]
  · rw [if_neg here]
    simp [here]

structure Grows (row row' : Row) : Prop where
  size : row'.cells.size = row.cells.size
  cell : ∀ (i : Nat) (x : Trait), x ∈ row.cell i → x ∈ row'.cell i
  layout : ∀ l ∈ row.layout, l ∈ row'.layout

theorem Grows.refl (row : Row) : Grows row row := ⟨rfl, fun _ _ => id, fun _ => id⟩

theorem Grows.trans {row row' row'' : Row} (first : Grows row row') (second : Grows row' row'') : Grows row row'' where
  size := second.size.trans first.size
  cell i x member := second.cell i x (first.cell i x member)
  layout l member := second.layout l (first.layout l member)

theorem grows_permit (row : Row) (layout : LayoutSet) : Grows row (row.permit layout) :=
  ⟨rfl, fun _ _ => id, fun _ member => BitSet.mem_union.mpr (.inl member)⟩

theorem permit_eq_self {row : Row} {layout : LayoutSet} (held : ∀ l ∈ layout, l ∈ row.layout) : row.permit layout = row := by
  have same : row.layout ∪ layout = row.layout := BitSet.ext fun l => by
    rw [BitSet.mem_union]
    exact or_iff_left_of_imp (held l)
  rw [permit, same]

theorem grows_merge (row : Row) (j : Nat) (c : Cell) : Grows row (row.merge j c) :=
  ⟨size_merge row j c, fun _ _ member => mem_cell_merge.mpr (.inl member), fun _ => id⟩

-- What may change while marks are set: cells only grow, and those that do are marked.
structure Advances (before after : Row × BitSet Nat) : Prop where
  grows : Grows before.1 after.1
  marks : ∀ i ∈ before.2, i ∈ after.2
  kept : ∀ i, i ∈ after.2 ∨ after.1.cell i = before.1.cell i

theorem Advances.refl (state : Row × BitSet Nat) : Advances state state :=
  ⟨.refl _, fun _ => id, fun _ => .inr rfl⟩

theorem Advances.trans {first second third : Row × BitSet Nat} (before : Advances first second)
    (after : Advances second third) : Advances first third where
  grows := before.grows.trans after.grows
  marks i member := after.marks i (before.marks i member)
  kept i := by
    rcases after.kept i with marked | same
    · exact .inl marked
    · exact (before.kept i).imp (after.marks i) same.trans

def Fresh (row row' : Row) (i : Nat) : Prop := ∃ x : Trait, x ∈ row'.cell i ∧ ¬ x ∈ row.cell i

theorem Fresh.later {row row' row'' : Row} {i : Nat} (fresh : Fresh row row' i) (grows : Grows row' row'') :
    Fresh row row'' i := by
  obtain ⟨x, member, new⟩ := fresh
  exact ⟨x, grows.cell i x member, new⟩

theorem Fresh.earlier {row row' row'' : Row} {i : Nat} (fresh : Fresh row' row'' i) (grows : Grows row row') :
    Fresh row row'' i := by
  obtain ⟨x, member, new⟩ := fresh
  exact ⟨x, member, fun old => new (grows.cell i x old)⟩

theorem advances_receive (c : Cell) (state : Row × BitSet Nat) (i : Nat) : Advances state (receive c state i) := by
  unfold receive
  split
  · exact .refl state
  · refine ⟨grows_merge _ _ _, fun j member => BitSet.mem_insert.mpr (.inl member), fun j => ?_⟩
    by_cases same : j = i
    · exact .inl (BitSet.mem_insert.mpr (.inr same))
    · refine .inr ?_
      rw [cell_merge, if_neg fun here => same here.1]

theorem mem_cell_receive {c : Cell} {state : Row × BitSet Nat} {i j : Nat} {x : Trait}
    (member : x ∈ (receive c state i).1.cell j) : x ∈ state.1.cell j ∨ j = i ∧ x ∈ c := by
  unfold receive at member
  split at member
  · exact .inl member
  · exact (mem_cell_merge.mp member).imp id fun ⟨here, offered⟩ => ⟨here.1, offered⟩

theorem holds_receive {c : Cell} {state : Row × BitSet Nat} {i : Nat} (inside : i < state.1.cells.size) {x : Trait}
    (offered : x ∈ c) : x ∈ (receive c state i).1.cell i := by
  unfold receive
  split
  · rename_i held
    exact Cell.subset_iff.mp held x offered
  · exact mem_cell_merge.mpr (.inr ⟨⟨rfl, inside⟩, offered⟩)

theorem fresh_receive {c : Cell} {state : Row × BitSet Nat} {i j : Nat} (inside : i < state.1.cells.size)
    (member : j ∈ (receive c state i).2) : j ∈ state.2 ∨ j = i ∧ Fresh state.1 (receive c state i).1 j := by
  by_cases held : c ⊆ state.1.cell i
  · rw [receive, if_pos held] at member
    exact .inl member
  · have grown := member
    rw [receive, if_neg held] at grown
    rcases BitSet.mem_insert.mp grown with old | rfl
    · exact .inl old
    · rw [Cell.subset_iff] at held
      push Not at held
      obtain ⟨x, offered, new⟩ := held
      exact .inr ⟨rfl, x, holds_receive inside offered, new⟩

theorem layout_receive (c : Cell) (state : Row × BitSet Nat) (i : Nat) :
    (receive c state i).1.layout = state.1.layout := by
  unfold receive
  split <;> rfl

structure Receipt (c : Cell) (entries : List Nat) (before after : Row × BitSet Nat) : Prop where
  advances : Advances before after
  layout : after.1.layout = before.1.layout
  sound : ∀ (i : Nat) (x : Trait), x ∈ after.1.cell i → x ∈ before.1.cell i ∨ i ∈ entries ∧ x ∈ c
  held : ∀ i ∈ entries, ∀ x : Trait, x ∈ c → x ∈ after.1.cell i
  fresh : ∀ i ∈ after.2, i ∈ before.2 ∨ i ∈ entries ∧ Fresh before.1 after.1 i

theorem receipt_foldl (c : Cell) (entries : List Nat) (state : Row × BitSet Nat)
    (inside : ∀ i ∈ entries, i < state.1.cells.size) : Receipt c entries state (entries.foldl (receive c) state) := by
  induction entries generalizing state with
  | nil => exact ⟨.refl _, rfl, fun _ _ => .inl, by simp, fun _ => .inl⟩
  | cons i entries ih =>
      have here := advances_receive c state i
      have bound := inside i List.mem_cons_self
      have rest := ih (receive c state i) fun j member => here.grows.size ▸ inside j (List.mem_cons_of_mem i member)
      rw [List.foldl_cons]
      refine ⟨here.trans rest.advances, rest.layout.trans (layout_receive c state i), fun j x member => ?_,
        fun j member x offered => ?_, fun j marked => ?_⟩
      · rcases rest.sound j x member with old | ⟨among, offered⟩
        · exact (mem_cell_receive old).imp id fun ⟨same, offered⟩ => ⟨by simp [same], offered⟩
        · exact .inr ⟨List.mem_cons_of_mem i among, offered⟩
      · rcases List.mem_cons.mp member with rfl | later
        · exact rest.advances.grows.cell j x (holds_receive bound offered)
        · exact rest.held j later x offered
      · rcases rest.fresh j marked with old | ⟨among, fresh⟩
        · exact (fresh_receive bound old).imp id fun ⟨same, fresh⟩ => ⟨by simp [same], fresh.later rest.advances.grows⟩
        · exact .inr ⟨List.mem_cons_of_mem i among, fresh.earlier here.grows⟩

-- An item that has passed on what it offers within the state.
def Done (outlooks : Array (Except Fault Outlook)) (row : Row) (k : Nat) : Prop :=
  ∀ o, outlooks.getD k (.error (.indexOutOfRange k)) = .ok o →
    (∀ i ∈ o.entries, ∀ x : Trait, x ∈ o.offer (row.cell k) → x ∈ row.cell i) ∧
      ∀ l ∈ o.admits (row.cell k), l ∈ row.layout

theorem Done.later {outlooks : Array (Except Fault Outlook)} {row row' : Row} {k : Nat} (done : Done outlooks row k)
    (grows : Grows row row') (same : row'.cell k = row.cell k) : Done outlooks row' k := by
  intro o answer
  obtain ⟨offered, admitted⟩ := done o answer
  rw [same]
  exact ⟨fun i among x member => grows.cell i x (offered i among x member), fun l member => grows.layout l (admitted l member)⟩

theorem Done.advance {outlooks : Array (Except Fault Outlook)} {before after : Row × BitSet Nat} {k : Nat}
    (done : Done outlooks before.1 k) (advances : Advances before after) : k ∈ after.2 ∨ Done outlooks after.1 k :=
  (advances.kept k).imp_right (done.later advances.grows)

structure Under (F : Set Fact) (s : Nat) (row : Row) : Prop where
  cell : ∀ (i : Nat) (x : Trait), x ∈ row.cell i → .item s i x ∈ F
  layout : ∀ l ∈ row.layout, .state s l ∈ F

structure Visited (a : Automaton) (F : Set Fact) (s : Nat) (outlooks : Array (Except Fault Outlook))
    (ks : List Nat) (before after : Row × BitSet Nat) : Prop where
  advances : Advances before after
  under : Under F s after.1
  done : ∀ k ∈ ks, k ∈ after.2 ∨ Done outlooks after.1 k
  fresh : ∀ i ∈ after.2, i ∈ before.2 ∨ (∃ item, a.item s i = .ok item) ∧ Fresh before.1 after.1 i

theorem Visited.append {a : Automaton} {F : Set Fact} {s : Nat} {outlooks : Array (Except Fault Outlook)}
    {ks ls : List Nat} {first second third : Row × BitSet Nat} (before : Visited a F s outlooks ks first second)
    (after : Visited a F s outlooks ls second third) : Visited a F s outlooks (ks ++ ls) first third where
  advances := before.advances.trans after.advances
  under := after.under
  done k member := by
    rcases List.mem_append.mp member with early | late
    · rcases before.done k early with marked | done
      · exact .inl (after.advances.marks k marked)
      · exact done.advance after.advances
    · exact after.done k late
  fresh i marked := by
    rcases after.fresh i marked with old | ⟨known, fresh⟩
    · exact (before.fresh i old).imp id fun ⟨known, fresh⟩ => ⟨known, fresh.later after.advances.grows⟩
    · exact .inr ⟨known, fresh.earlier before.advances.grows⟩

-- What the rounds come to that start with some `active` items, when others have been `visited` before.
structure Settles (a : Automaton) (F : Set Fact) (s : Nat) (outlooks : Array (Except Fault Outlook)) (row : Row)
    (active visited : BitSet Nat) (after : Row × BitSet Nat) : Prop where
  rests : Rests outlooks row active visited after
  advances : Advances (row, visited ∪ active) after
  under : Under F s after.1
  done : ∀ k ∈ after.2, Done outlooks after.1 k
  ready : ∀ k ∈ after.2, k ∈ visited ∨ (∃ item, a.item s k = .ok item) ∧ Grammar.Active F s k

section

variable {a : Automaton} {F : Set Fact} {s : Nat} {outlooks : Array (Except Fault Outlook)} {row : Row}
  {active visited : BitSet Nat}

theorem Settles.stop (under : Under F s row) (done : ∀ k ∈ visited, k ∈ (∅ : BitSet Nat) ∨ Done outlooks row k) :
    Settles a F s outlooks row ∅ visited (row, visited) where
  rests := .stop row visited
  advances := ⟨.refl row, by simp, fun _ => .inr rfl⟩
  under := under
  done k member := (done k member).resolve_left (BitSet.not_mem_empty k)
  ready _ := .inl

theorem Settles.round {row' : Row} {grown : BitSet Nat} {after : Row × BitSet Nat} (left : active ≠ ∅)
    (ran : active.toList.foldlM (visit outlooks) (row, ∅) = .ok (row', grown))
    (round : Visited a F s outlooks active.toList (row, ∅) (row', grown))
    (ready : ∀ k ∈ active, (∃ item, a.item s k = .ok item) ∧ Grammar.Active F s k)
    (rest : Settles a F s outlooks row' grown (visited ∪ active) after) : Settles a F s outlooks row active visited after where
  rests := .round row row' active visited grown after left ran rest.rests
  advances := by
    refine ⟨round.advances.grows.trans rest.advances.grows, fun k member => ?_, fun k => ?_⟩
    · exact rest.advances.marks k (BitSet.mem_union.mpr (.inl member))
    · rcases rest.advances.kept k with marked | same
      · exact .inl marked
      · rcases round.advances.kept k with grew | before
        · exact .inl (rest.advances.marks k (BitSet.mem_union.mpr (.inr grew)))
        · exact .inr (same.trans before)
  under := rest.under
  done := rest.done
  ready k member := by
    rcases rest.ready k member with early | late
    · exact (BitSet.mem_union.mp early).imp id (ready k)
    · exact .inr late

-- To admit the opening of an entry already where the entry receives it would make no difference: as soon as
-- the entry has been visited, it is admitted anyway.
theorem Settles.permit_opening {after : Row × BitSet Nat} (settles : Settles a F s outlooks row active visited after)
    {k : Nat} {o : Outlook} (member : k ∈ after.2) (answer : outlooks.getD k (.error (.indexOutOfRange k)) = .ok o)
    (first : o.atStart = true) : after.1.permit (after.1.cell k).opening = after.1 := by
  obtain ⟨-, admitted⟩ := settles.done k member o answer
  refine permit_eq_self fun l opens => admitted l ?_
  rw [Outlook.admits, if_pos first]
  exact BitSet.mem_union.mpr (.inl opens)

theorem Visited.done_or_grown {row' : Row} {grown : BitSet Nat}
    (round : Visited a F s outlooks active.toList (row, ∅) (row', grown))
    (done : ∀ k ∈ visited, k ∈ active ∨ Done outlooks row k) :
    ∀ k ∈ visited ∪ active, k ∈ grown ∨ Done outlooks row' k := by
  intro k member
  rcases BitSet.mem_union.mp member with old | now
  · rcases done k old with now | done
    · exact round.done k (BitSet.mem_toList.mpr now)
    · exact (round.advances.kept k).imp_right (done.later round.advances.grows)
  · exact round.done k (BitSet.mem_toList.mpr now)

end

def missing {ι : Type} (g : Grammar) (slots : List ι) (cell : ι → Cell) : Nat :=
  (slots ×ˢ g.traits).countP fun (i, x) => x ∉ cell i

theorem missing_le {ι : Type} (g : Grammar) (slots : List ι) (cell : ι → Cell) :
    missing g slots cell ≤ slots.length * g.traits.length := by
  refine List.countP_le_length.trans (le_of_eq ?_)
  exact List.length_product slots g.traits

theorem missing_lt {ι : Type} (g : Grammar) (slots : List ι) (cell cell' : ι → Cell) {i : ι} {x : Trait}
    (grows : ∀ j ∈ slots, ∀ y : Trait, y ∈ cell j → y ∈ cell' j) (among : i ∈ slots) (known : x ∈ g.traits) (old : ¬ x ∈ cell i)
    (new : x ∈ cell' i) : missing g slots cell' < missing g slots cell := by
  refine Grammar.countP_lt_countP _ _ _ ?_ (i, x) (List.mem_product.mpr ⟨among, known⟩) (by simpa using new) (by simpa using old)
  rintro ⟨j, y⟩ member absent
  simp only [decide_not, Bool.not_eq_true', decide_eq_false_iff_not] at absent ⊢
  exact fun held => absent (grows j (List.mem_product.mp member).1 y held)

section

variable {g : Grammar} {a : Automaton} {F : Set Fact} {s : Nat} {outlooks : Array (Except Fault Outlook)}
  (told : ∀ k item, a.item s k = .ok item → ∃ o p α β,
    outlooks.getD k (.error (.indexOutOfRange k)) = .ok o ∧ g.Describes a s k o p α β)
  (closed : g.Closed a F)
include told closed

theorem visit_visited (row : Row) (grown : BitSet Nat) {k : Nat} {item : Item} (at' : a.item s k = .ok item)
    (fits : ∀ i other, a.item s i = .ok other → i < row.cells.size) (under : Under F s row)
    (active : Grammar.Active F s k) :
    ∃ after, visit outlooks (row, grown) k = .ok after ∧ Visited a F s outlooks [k] (row, grown) after := by
  obtain ⟨o, p, α, β, answer, describes⟩ := told k item at'
  have known : ∀ i ∈ o.entries, ∃ other, a.item s i = .ok other := by
    intro i among
    obtain ⟨n, -, q, ω, ⟨id, atI, -⟩, -⟩ := describes.entry among
    exact ⟨_, atI⟩
  have receipt := receipt_foldl (o.offer (row.cell k)) o.entries (row.permit (o.admits (row.cell k)), grown)
    fun i among => by
      obtain ⟨other, atI⟩ := known i among
      exact fits i other atI
  refine ⟨o.entries.foldl (receive (o.offer (row.cell k))) (row.permit (o.admits (row.cell k)), grown), ?_, ?_⟩
  · simp only [visit, answer, bind, Except.bind, pure, Except.pure]
  generalize o.entries.foldl (receive (o.offer (row.cell k))) (row.permit (o.admits (row.cell k)), grown) = after at receipt ⊢
  have permitted := grows_permit row (o.admits (row.cell k))
  have grows : Grows row after.1 := permitted.trans receipt.advances.grows
  refine ⟨⟨grows, receipt.advances.marks, receipt.advances.kept⟩, ⟨fun i x member => ?_, fun l member => ?_⟩,
    fun i member => ?_, fun i marked => ?_⟩
  · rcases receipt.sound i x member with old | ⟨among, offered⟩
    · exact under.cell i x old
    · exact closed.passed s k active _ (describes.passes_of_mem_offer (under.cell k) among offered)
  · rw [receipt.layout] at member
    rcases BitSet.mem_union.mp member with old | admitted
    · exact under.layout l old
    · exact closed.passed s k active _ (describes.passes_of_mem_admits (under.cell k) admitted)
  · obtain rfl := List.mem_singleton.mp member
    refine (receipt.advances.kept i).imp_right fun same o' answer' => ?_
    have unchanged : after.1.cell i = row.cell i := same
    rw [answer, Except.ok.injEq] at answer'
    subst answer'
    rw [unchanged]
    refine ⟨receipt.held, fun l admitted => ?_⟩
    rw [receipt.layout]
    exact BitSet.mem_union.mpr (.inr admitted)
  · exact (receipt.fresh i marked).imp id fun ⟨among, fresh⟩ => ⟨known i among, fresh.earlier permitted⟩

theorem foldlM_visited (ks : List Nat) (row : Row) (grown : BitSet Nat)
    (fits : ∀ i other, a.item s i = .ok other → i < row.cells.size) (under : Under F s row)
    (ready : ∀ k ∈ ks, (∃ item, a.item s k = .ok item) ∧ Grammar.Active F s k) :
    ∃ after, ks.foldlM (visit outlooks) (row, grown) = .ok after ∧ Visited a F s outlooks ks (row, grown) after := by
  induction ks generalizing row grown with
  | nil => exact ⟨(row, grown), rfl, .refl _, under, by simp, fun _ => .inl⟩
  | cons k ks ih =>
      obtain ⟨⟨item, at'⟩, active⟩ := ready k List.mem_cons_self
      obtain ⟨⟨row', grown'⟩, ran, here⟩ := visit_visited told closed row grown at' fits under active
      obtain ⟨after, rest, later⟩ := ih row' grown'
        (fun i other atI => here.advances.grows.size ▸ fits i other atI) here.under
        fun j member => ready j (List.mem_cons_of_mem k member)
      refine ⟨after, ?_, here.append later⟩
      rw [List.foldlM_cons, ran]
      exact rest

-- Each round but the last makes some cell grow, for which there must have been room.
theorem settle_visited (bounded : ∀ i x, .item s i x ∈ F → x ∈ g.traits) (rounds : Nat) (row : Row)
    (active visited : BitSet Nat) (fits : ∀ i other, a.item s i = .ok other → i < row.cells.size)
    (under : Under F s row) (ready : ∀ k ∈ active, (∃ item, a.item s k = .ok item) ∧ Grammar.Active F s k)
    (done : ∀ k ∈ visited, k ∈ active ∨ Done outlooks row k)
    (enough : active = ∅ ∨ missing g (List.range row.cells.size) row.cell < rounds) :
    ∃ after, settle outlooks rounds row active visited = .ok after ∧ Settles a F s outlooks row active visited after := by
  induction rounds generalizing row active visited with
  | zero =>
      obtain rfl := enough.resolve_right (Nat.not_lt_zero _)
      exact ⟨(row, visited), rfl, .stop under done⟩
  | succ rounds ih =>
      rw [settle]
      by_cases empty : active = ∅
      · subst empty
        rw [if_pos rfl]
        exact ⟨(row, visited), rfl, .stop under done⟩
      · rw [if_neg empty]
        obtain ⟨⟨row', grown⟩, ran, round⟩ := foldlM_visited told closed active.toList row ∅ fits under
          fun k member => ready k (BitSet.mem_toList.mp member)
        have entered : ∀ i ∈ grown, (∃ item, a.item s i = .ok item) ∧ Fresh row row' i := fun i member =>
          (round.fresh i member).resolve_left (BitSet.not_mem_empty i)
        have next : grown = ∅ ∨ missing g (List.range row'.cells.size) row'.cell < rounds := by
          by_cases none : grown = ∅
          · exact .inl none
          · right
            obtain ⟨i, member⟩ := BitSet.ne_empty_iff.mp none
            obtain ⟨⟨other, atI⟩, x, new, old⟩ := entered i member
            have less := missing_lt g (List.range row.cells.size) row.cell row'.cell (fun j _ y => round.advances.grows.cell j y)
              (List.mem_range.mpr (fits i other atI)) (bounded i x (round.under.cell i x new)) old new
            have before := enough.resolve_left empty
            rw [round.advances.grows.size]
            exact Nat.lt_of_lt_of_le less (Nat.lt_succ_iff.mp before)
        obtain ⟨after, rest, settles⟩ := ih row' grown (visited ∪ active)
          (fun i other atI => round.advances.grows.size ▸ fits i other atI) round.under
          (fun k member => by
            obtain ⟨known, x, new, -⟩ := entered k member
            exact ⟨known, .inr ⟨x, round.under.cell k x new⟩⟩)
          (round.done_or_grown done) next
        refine ⟨after, ?_, settles.round empty ran round ready⟩
        rw [ran]
        exact rest

end

end Row

end Lookahead
