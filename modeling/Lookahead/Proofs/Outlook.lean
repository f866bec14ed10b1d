import Lookahead.Proofs.Collection
import Lookahead.Proofs.Context
import Lookahead.Proofs.Family
import Lookahead.Table.Board

set_option autoImplicit false

namespace Lookahead

namespace Cell

instance : Membership Trait Cell where
  mem c x :=
    match x with
    | .lookahead t => t ∈ c.lookahead
    | .opening l => l ∈ c.opening
    | .closing l => l ∈ c.closing

instance (x : Trait) (c : Cell) : Decidable (x ∈ c) :=
  match x with
  | .lookahead t => inferInstanceAs (Decidable (t ∈ c.lookahead))
  | .opening l => inferInstanceAs (Decidable (l ∈ c.opening))
  | .closing l => inferInstanceAs (Decidable (l ∈ c.closing))

theorem subset_iff {c d : Cell} : c ⊆ d ↔ ∀ x : Trait, x ∈ c → x ∈ d := by
  constructor
  · rintro ⟨lookahead, opening, closing⟩ x member
    cases x with
    | lookahead t => exact lookahead t member
    | opening l => exact opening l member
    | closing l => exact closing l member
  · intro all
    exact ⟨fun t => all (.lookahead t), fun l => all (.opening l), fun l => all (.closing l)⟩

@[simp] theorem mem_union {c d : Cell} {x : Trait} : x ∈ c ∪ d ↔ x ∈ c ∨ x ∈ d := by
  cases x <;> exact BitSet.mem_union

@[simp] theorem not_mem_empty (x : Trait) : ¬ x ∈ (∅ : Cell) := by
  cases x <;> exact BitSet.not_mem_empty _

theorem ext {c d : Cell} (same : ∀ x : Trait, x ∈ c ↔ x ∈ d) : c = d := by
  cases c
  cases d
  congr 1
  · exact BitSet.ext fun t => same (.lookahead t)
  · exact BitSet.ext fun l => same (.opening l)
  · exact BitSet.ext fun l => same (.closing l)

theorem finite_traits (c : Cell) : {x : Trait | x ∈ c}.Finite := by
  refine (List.finite_toSet (c.lookahead.toList.map Trait.lookahead ++ (c.opening.toList.map Trait.opening ++
    c.closing.toList.map Trait.closing))).subset fun x member => ?_
  simp only [List.mem_append, List.mem_map, BitSet.mem_toList, Set.mem_ofPred_eq]
  cases x with
  | lookahead t => exact .inl ⟨t, member, rfl⟩
  | opening l => exact .inr (.inl ⟨l, member, rfl⟩)
  | closing l => exact .inr (.inr ⟨l, member, rfl⟩)

end Cell

theorem BitSet.ne_empty_iff {α : Type} [Indexed α] {s : BitSet α} : s ≠ ∅ ↔ ∃ x, x ∈ s := by
  constructor
  · intro some
    by_contra none
    refine some (ext fun x => ?_)
    simp only [not_mem_empty, iff_false]
    exact fun member => none ⟨x, member⟩
  · rintro ⟨x, member⟩ rfl
    exact not_mem_empty x member

theorem BitSet.mem_ite_empty {α : Type} [Indexed α] {c : Prop} [Decidable c] {s : BitSet α} {x : α} :
    x ∈ (if c then s else ∅) ↔ c ∧ x ∈ s := by
  by_cases h : c <;> simp [h]

theorem mapM_eq_ok {ε α β : Type} (f : α → Except ε β) (as : List α) (answered : ∀ x ∈ as, ∃ y, f x = .ok y) :
    ∃ bs, as.mapM f = .ok bs ∧ List.Forall₂ (fun x y => f x = .ok y) as bs := by
  induction as with
  | nil => exact ⟨[], rfl, .nil⟩
  | cons x as ih =>
      obtain ⟨y, here⟩ := answered x List.mem_cons_self
      obtain ⟨bs, rest, pairs⟩ := ih fun z member => answered z (List.mem_cons_of_mem x member)
      exact ⟨y :: bs, by rw [List.mapM_cons, here, rest]; rfl, .cons here pairs⟩

theorem mem_entryIndices {heads : List (Option Nonterminal)} {x : Symbol} {i : Nat} :
    i ∈ entryIndices heads x ↔ ∃ n, x = .nonterminal n ∧ heads[i]? = some (some n) := by
  simp only [entryIndices, List.mem_filterMap, Prod.exists, List.mk_mem_zipIdx_iff_getElem?]
  constructor
  · rintro ⟨head, j, at', same⟩
    split at same
    · rename_i left
      cases same
      obtain ⟨n, rfl, rfl⟩ := Option.map_eq_some_iff.mp left
      exact ⟨n, rfl, at'⟩
    · cases same
  · rintro ⟨n, rfl, at'⟩
    exact ⟨some n, i, at', by simp⟩

namespace Grammar

variable {g : Grammar} {a : Automaton}

theorem Dotted.unique {s k : Nat} {p q : Production} {α β γ δ : List Symbol} (here : g.Dotted a s k p α β)
    (there : g.Dotted a s k q γ δ) : p = q ∧ α = γ ∧ β = δ := by
  obtain ⟨id, at', found, split⟩ := here
  obtain ⟨id', at'', found', split'⟩ := there
  rw [at', Except.ok.injEq, Item.mk.injEq] at at''
  obtain ⟨rfl, length⟩ := at''
  rw [found, Option.some.injEq] at found'
  subst found'
  obtain ⟨front, back⟩ := List.append_inj (split.symm.trans split') length
  exact ⟨rfl, front, back⟩

theorem dotted_of_item (wf : g.WellFormed) (returned : g.automaton = .ok a) {s k : Nat} {item : Item}
    (at' : a.item s k = .ok item) : ∃ p, g.production? item.production = some p ∧ item.position ≤ p.right.size ∧
      g.Dotted a s k p (p.right.toList.take item.position) (p.right.toList.drop item.position) := by
  obtain ⟨p, found, bound⟩ := item_places returned wf at'
  refine ⟨p, found, bound, item.production, ?_, found, (List.take_append_drop _ _).symm⟩
  rw [List.length_take_of_le (by simpa using bound)]
  exact at'

theorem dotted_of_goes (wf : g.WellFormed) (returned : g.automaton = .ok a) {s k t j : Nat} {x : Symbol}
    (goes : a.Goes s k x t j) : ∃ item, a.item t j = .ok item ∧ ∃ p α β, g.Dotted a t j p α β := by
  obtain ⟨edge, taken, rfl, move⟩ := goes
  obtain ⟨item, -, -, at'⟩ := move_sound returned taken move
  obtain ⟨p, -, -, there⟩ := dotted_of_item wf returned at'
  exact ⟨item.advance, at', p, _, _, there⟩

structure Describes (g : Grammar) (a : Automaton) (s k : Nat) (o : Outlook) (p : Production)
    (α β : List Symbol) : Prop where
  here : g.Dotted a s k p α β
  atStart : o.atStart = true ↔ α = []
  atEnd : o.atEnd = true ↔ β = []
  layout : o.layout = p.layout
  first : ∀ t, t ∈ o.behind.first ↔ g.Begins β.tail t
  nullable : o.behind.nullable = true ↔ g.Vanishes β.tail
  vanishing : o.vanishing = true ↔ g.Vanishes β
  entries : ∀ i, i ∈ o.entries ↔ ∃ n, β.head? = some (.nonterminal n) ∧ g.Enters a s i n

namespace Describes

variable {s k : Nat} {o : Outlook} {p : Production} {α β : List Symbol} (describes : g.Describes a s k o p α β)
include describes

theorem entry {i : Nat} (among : i ∈ o.entries) : ∃ n, β = .nonterminal n :: β.tail ∧ g.Enters a s i n := by
  obtain ⟨n, head, enters⟩ := (describes.entries i).mp among
  exact ⟨n, (List.cons_head?_tail head).symm, enters⟩

theorem mem_gap {l : Layout} : l ∈ o.gap ↔ ((∃ t, g.Begins β.tail t) ∨ α ≠ [] ∧ β ≠ []) ∧ l ∈ p.layout := by
  rw [Outlook.gap, BitSet.mem_ite_empty, BitSet.ne_empty_iff, describes.layout]
  simp only [describes.first, ne_eq, ← describes.atStart, ← describes.atEnd]

theorem passes_of_mem_offer {F : Set Fact} {c : Cell} (known : ∀ x : Trait, x ∈ c → .item s k x ∈ F) {i : Nat}
    (among : i ∈ o.entries) {x : Trait} (offered : x ∈ o.offer c) : g.Passes a F s k (.item s i x) := by
  obtain ⟨n, split, enters⟩ := describes.entry among
  have here := describes.here
  rw [split] at here
  cases x with
  | lookahead t =>
      rcases BitSet.mem_union.mp offered with begins | behind
      · exact .first i p α _ n t here enters ((describes.first t).mp begins)
      · obtain ⟨null, member⟩ := BitSet.mem_ite_empty.mp behind
        exact .lookahead i p α _ n t here enters (describes.nullable.mp null) (known _ member)
  | opening l =>
      change l ∈ (if o.atStart then c.opening else o.layout) at offered
      split at offered
      · rename_i start
        obtain rfl := describes.atStart.mp start
        exact .opening i p _ n l here enters (known _ offered)
      · rename_i later
        rw [describes.layout] at offered
        exact .between i p α _ n l here enters (fun empty => later (describes.atStart.mpr empty)) offered
  | closing l =>
      rcases BitSet.mem_union.mp offered with gap | behind
      · obtain ⟨around, admitted⟩ := describes.mem_gap.mp gap
        exact .gap i p α _ n l here enters (around.symm.imp And.left id) admitted
      · obtain ⟨null, member⟩ := BitSet.mem_ite_empty.mp behind
        exact .closing i p α _ n l here enters (describes.nullable.mp null) (known _ member)

theorem passes_of_mem_admits {F : Set Fact} {c : Cell} (known : ∀ x : Trait, x ∈ c → .item s k x ∈ F) {l : Layout}
    (admitted : l ∈ o.admits c) : g.Passes a F s k (.state s l) := by
  have here := describes.here
  rcases BitSet.mem_union.mp admitted with before | behind
  · obtain ⟨start, member⟩ := BitSet.mem_ite_empty.mp before
    obtain rfl := describes.atStart.mp start
    exact .before p β l here (known _ member)
  · obtain ⟨null, member⟩ := BitSet.mem_ite_empty.mp behind
    exact .behind p α β l here (describes.vanishing.mp null) (known _ member)

theorem passes_cases {F : Set Fact} {c : Cell} (held : ∀ x : Trait, .item s k x ∈ F → x ∈ c) {fact : Fact}
    (passes : g.Passes a F s k fact) :
    (∃ i ∈ o.entries, ∃ x ∈ o.offer c, fact = .item s i x) ∨ (∃ l ∈ o.admits c, fact = .state s l) ∨
      ∃ x t j, a.Goes s k x t j ∧ ((∃ y ∈ c, fact = .item t j y) ∨
        ∃ q γ δ l, g.Dotted a t j q γ δ ∧ δ ≠ [] ∧ l ∈ q.layout ∧ fact = .state t l) := by
  have listed : ∀ {γ δ q n i}, g.Dotted a s k q γ (.nonterminal n :: δ) → g.Enters a s i n →
      p = q ∧ α = γ ∧ β.tail = δ ∧ β ≠ [] ∧ i ∈ o.entries := by
    intro γ δ q n i there enters
    obtain ⟨same, front, back⟩ := describes.here.unique there
    exact ⟨same, front, by rw [back, List.tail_cons], by simp [back],
      (describes.entries i).mpr ⟨n, by rw [back, List.head?_cons], enters⟩⟩
  cases passes with
  | first i q γ δ n t there enters begins =>
      obtain ⟨rfl, rfl, rfl, -, among⟩ := listed there enters
      exact .inl ⟨i, among, .lookahead t, BitSet.mem_union.mpr (.inl ((describes.first t).mpr begins)), rfl⟩
  | lookahead i q γ δ n t there enters gone known =>
      obtain ⟨rfl, rfl, rfl, -, among⟩ := listed there enters
      have inherited := BitSet.mem_ite_empty.mpr ⟨describes.nullable.mpr gone, held _ known⟩
      exact .inl ⟨i, among, .lookahead t, BitSet.mem_union.mpr (.inr inherited), rfl⟩
  | opening i q δ n l there enters known =>
      obtain ⟨rfl, start, rfl, -, among⟩ := listed there enters
      refine .inl ⟨i, among, .opening l, ?_, rfl⟩
      change l ∈ (if o.atStart then c.opening else o.layout)
      rw [if_pos (describes.atStart.mpr start)]
      exact held _ known
  | between i q γ δ n l there enters inside admitted =>
      obtain ⟨rfl, rfl, rfl, -, among⟩ := listed there enters
      refine .inl ⟨i, among, .opening l, ?_, rfl⟩
      change l ∈ (if o.atStart then c.opening else o.layout)
      rw [if_neg fun start => inside (describes.atStart.mp start), describes.layout]
      exact admitted
  | gap i q γ δ n l there enters around admitted =>
      obtain ⟨rfl, rfl, rfl, more, among⟩ := listed there enters
      have gap := describes.mem_gap.mpr ⟨around.symm.imp_right fun inside => ⟨inside, more⟩, admitted⟩
      exact .inl ⟨i, among, .closing l, BitSet.mem_union.mpr (.inl gap), rfl⟩
  | closing i q γ δ n l there enters gone known =>
      obtain ⟨rfl, rfl, rfl, -, among⟩ := listed there enters
      have inherited := BitSet.mem_ite_empty.mpr ⟨describes.nullable.mpr gone, held _ known⟩
      exact .inl ⟨i, among, .closing l, BitSet.mem_union.mpr (.inr inherited), rfl⟩
  | move x t j y step inner known => exact .inr (.inr ⟨x, t, j, step, .inl ⟨y, held y known, rfl⟩⟩)
  | arrive x t j q γ δ l step inner there more admitted =>
      exact .inr (.inr ⟨x, t, j, step, .inr ⟨q, γ, δ, l, there, more, admitted, rfl⟩⟩)
  | before q δ l there known =>
      obtain ⟨-, start, -⟩ := describes.here.unique there
      have opened := BitSet.mem_ite_empty.mpr ⟨describes.atStart.mpr start, held _ known⟩
      exact .inr (.inl ⟨l, BitSet.mem_union.mpr (.inl opened), rfl⟩)
  | behind q γ δ l there gone known =>
      obtain ⟨-, -, rfl⟩ := describes.here.unique there
      have closed := BitSet.mem_ite_empty.mpr ⟨describes.vanishing.mpr gone, held _ known⟩
      exact .inr (.inl ⟨l, BitSet.mem_union.mpr (.inr closed), rfl⟩)

end Describes

theorem production_eq_ok_iff {id : ProductionId} {p : Production} :
    g.production id = .ok p ↔ g.production? id = some p := by
  unfold production
  cases g.production? id <;> simp

theorem enters_iff {s i : Nat} {n : Nonterminal} : g.Enters a s i n ↔
    ∃ item p, a.item s i = .ok item ∧ g.production? item.production = some p ∧ item.position = 0 ∧ p.left = n := by
  constructor
  · rintro ⟨p, ω, ⟨id, at', found, -⟩, left⟩
    exact ⟨⟨id, 0⟩, p, at', found, rfl, left⟩
  · rintro ⟨⟨id, _⟩, p, at', found, rfl, left⟩
    exact ⟨p, p.right.toList, ⟨id, at', found, rfl⟩, left⟩

theorem heads_exact (items : List Item) (placed : ∀ item ∈ items, g.Places item) :
    ∃ heads, g.heads items = .ok heads ∧ ∀ (i : Nat) n, heads[i]? = some (some n) ↔ ∃ item p,
      items[i]? = some item ∧ g.production? item.production = some p ∧ item.position = 0 ∧ p.left = n := by
  have answered : ∀ item ∈ items, ∃ head, (do
      let p ← g.production item.production
      return if item.position = 0 then some p.left else none) = Except.ok (ε := Fault) head := by
    intro item member
    obtain ⟨p, found, -⟩ := placed item member
    exact ⟨_, by rw [production_eq_ok_iff.mpr found]; rfl⟩
  obtain ⟨heads, ran, pairs⟩ := mapM_eq_ok _ items answered
  refine ⟨heads, ran, fun i n => ?_⟩
  have along : ∀ item head, items[i]? = some item → heads[i]? = some head → ∃ p,
      g.production? item.production = some p ∧ head = if item.position = 0 then some p.left else none := by
    intro item head atI atI'
    obtain ⟨p, found, -⟩ := placed item (List.mem_of_getElem? atI)
    obtain ⟨bound, rfl⟩ := List.getElem?_eq_some_iff.mp atI
    obtain ⟨bound', rfl⟩ := List.getElem?_eq_some_iff.mp atI'
    have here := pairs.get bound bound'
    simp only [List.get_eq_getElem, production_eq_ok_iff.mpr found] at here
    exact ⟨p, found, (Except.ok.inj here).symm⟩
  constructor
  · intro atI
    have bound : i < items.length := pairs.length_eq ▸ (List.getElem?_eq_some_iff.mp atI).1
    obtain ⟨p, found, same⟩ := along items[i] (some n) (List.getElem?_eq_getElem bound) atI
    by_cases first : items[i].position = 0
    · rw [if_pos first, Option.some.injEq] at same
      exact ⟨items[i], p, List.getElem?_eq_getElem bound, found, first, same.symm⟩
    · rw [if_neg first] at same
      cases same
  · rintro ⟨item, p, atI, found, first, rfl⟩
    have bound : i < heads.length := pairs.length_eq ▸ (List.getElem?_eq_some_iff.mp atI).1
    obtain ⟨q, found', same⟩ := along item heads[i] atI (List.getElem?_eq_getElem bound)
    rw [found, Option.some.injEq] at found'
    rw [List.getElem?_eq_getElem bound, same, if_pos first, found']

theorem take_position_eq_nil_iff {item : Item} {p : Production} (bound : item.position ≤ p.right.size) :
    p.right.toList.take item.position = [] ↔ item.position = 0 := by
  rw [List.take_eq_nil_iff]
  constructor
  · rintro (zero | empty)
    · exact zero
    · simp only [Array.toList_eq_nil_iff] at empty
      simpa [empty] using bound
  · exact .inl

section

variable (wf : g.WellFormed) (returned : g.automaton = .ok a)
include wf returned

theorem heads_of_state {s : Nat} {state : State} (atS : a.states[s]? = some state) :
    ∃ heads, g.heads state.items.toList = .ok heads ∧ ∀ (i : Nat) n, heads[i]? = some (some n) ↔ g.Enters a s i n := by
  have itemOf : ∀ (i : Nat) item, state.items[i]? = some item ↔ a.item s i = .ok item := by
    intro i item
    rw [Automaton.item_eq_ok_iff, atS]
    simp
  obtain ⟨heads, ran, exact⟩ := heads_exact (g := g) state.items.toList fun item member => by
    obtain ⟨i, atI⟩ := Array.mem_iff_getElem?.mp (Array.mem_toList_iff.mp member)
    exact item_places returned wf ((itemOf i item).mp atI)
  refine ⟨heads, ran, fun i n => ?_⟩
  simp only [exact, enters_iff, ← itemOf, Array.getElem?_toList]

theorem outlook_exact {s k : Nat} {state : State} {item : Item} (atS : a.states[s]? = some state)
    (atK : state.items[k]? = some item) :
    ∃ o p α β, g.outlook g.context (g.heads state.items.toList) item = .ok o ∧ g.Describes a s k o p α β := by
  obtain ⟨p, found, bound, here⟩ := dotted_of_item wf returned (Automaton.item_eq_ok_iff.mpr ⟨state, atS, atK⟩)
  obtain ⟨heads, headsRan, headsExact⟩ := heads_of_state wf returned atS
  have known : ∀ x ∈ p.right.toList.drop item.position, g.Knows x := fun x member =>
    wf.knows_right found (Array.mem_toList_iff.mp (List.mem_of_mem_drop member))
  have tail : p.right.toList.drop (item.position + 1) = (p.right.toList.drop item.position).tail := List.tail_drop.symm
  obtain ⟨behind, behindRan, first, nullable⟩ :=
    Context.prospect_exact wf (p.right.toList.drop item.position).tail fun x member => known x (List.mem_of_mem_tail member)
  have front := take_position_eq_nil_iff bound
  unfold outlook
  simp only [production_eq_ok_iff.mpr found, headsRan, bind, Except.bind, tail, behindRan]
  cases after : p.right[item.position]? with
  | some x =>
      obtain ⟨inside, rfl⟩ := Array.getElem?_eq_some_iff.mp after
      have split : p.right.toList.drop item.position = p.right[item.position] :: (p.right.toList.drop item.position).tail := by
        rw [List.tail_drop]
        exact List.drop_eq_getElem_cons (by simpa using inside)
      obtain ⟨null, nullRan, gone⟩ :=
        Context.isNullable_exact (known p.right[item.position] (by rw [split]; exact List.mem_cons_self))
      refine ⟨⟨item.position = 0, false, p.layout, behind, behind.nullable && null,
        entryIndices heads p.right[item.position]⟩, p, _, _, ?_, here, ?_, ?_, rfl, first, nullable, ?_, fun i => ?_⟩
      · simp only [nullRan]
        cases behind.nullable <;> rfl
      · rw [decide_eq_true_iff, front]
      · rw [split]
        simp
      · rw [split, vanishes_cons_iff, ← gone, ← nullable, Bool.and_eq_true, and_comm]
      · rw [mem_entryIndices, split, List.head?_cons]
        simp only [Option.some.injEq, headsExact]
  | none =>
      have atEnd : item.position = p.right.size :=
        Nat.le_antisymm bound (Array.getElem?_eq_none_iff.mp after)
      have empty : p.right.toList.drop item.position = [] := List.drop_eq_nil_of_le (by simp [atEnd])
      refine ⟨⟨item.position = 0, true, p.layout, behind, true, []⟩, p, _, _, ?_, here, ?_, ?_, rfl, first, nullable,
        ?_, fun i => ?_⟩
      · rw [if_pos atEnd]
        rfl
      · rw [decide_eq_true_iff, front]
      · simp [empty]
      · rw [empty]
        exact iff_of_true rfl .refl
      · simp [empty]

end

end Grammar

end Lookahead
