import Lookahead.Context
import Lookahead.Proofs.Derivation
import Lookahead.Proofs.Search
import Lookahead.Proofs.WellFormed

set_option autoImplicit false

namespace Lookahead

namespace Grammar

variable {g : Grammar}

theorem vanishes_of_forall {β : List Symbol} (all : ∀ x ∈ β, g.Vanishes [x]) : g.Vanishes β := by
  induction β with
  | nil => exact .refl
  | cons x β ih =>
      exact Derives.append (α := [x]) (all x List.mem_cons_self) (ih fun y member => all y (List.mem_cons_of_mem x member))

theorem nullablePass_nullableFrom (nulls : BitSet Nonterminal) :
    g.nullablePass (g.nullableFrom nulls) ⊆ g.nullableFrom nulls := by
  induction nulls using nullableFrom.induct g with
  | case1 nulls fixed => rwa [nullableFrom, if_pos fixed]
  | case2 nulls fixed ih => rwa [nullableFrom, if_neg fixed]

theorem left_mem_foldl_addNullable (ps : List Production) (nulls : BitSet Nonterminal) (p : Production)
    (among : p ∈ ps) (all : ∀ x ∈ p.right, x.isIn nulls = true) : p.left ∈ ps.foldl addNullable nulls := by
  induction ps generalizing nulls with
  | nil => simp at among
  | cons q ps ih =>
      rw [List.foldl_cons]
      rcases List.mem_cons.mp among with rfl | later
      · apply subset_foldl_addNullable
        rw [addNullable, if_pos (Array.all_eq_true_iff_forall_mem.mpr all)]
        exact BitSet.mem_insert.mpr (.inr rfl)
      · refine ih (addNullable nulls q) later fun x member => ?_
        have old := all x member
        cases x with
        | terminal t => exact old
        | nonterminal n =>
            simp only [Symbol.isIn, decide_eq_true_eq] at old ⊢
            exact subset_addNullable nulls q n old

theorem vanishes_of_mem_foldl_addNullable (ps : List Production) (nulls : BitSet Nonterminal)
    (known : ∀ p ∈ ps, p ∈ g.productions) (sound : ∀ n ∈ nulls, g.Vanishes [.nonterminal n]) :
    ∀ n ∈ ps.foldl addNullable nulls, g.Vanishes [.nonterminal n] := by
  induction ps generalizing nulls with
  | nil => exact sound
  | cons p ps ih =>
      refine ih (addNullable nulls p) (fun q member => known q (List.mem_cons_of_mem p member)) ?_
      intro n member
      rw [addNullable] at member
      split at member
      · rename_i all
        rcases BitSet.mem_insert.mp member with old | rfl
        · exact sound n old
        · obtain ⟨id, found⟩ := mem_productions.mp (known p List.mem_cons_self)
          refine (derives_production found).trans (vanishes_of_forall fun x inside => ?_)
          have null := Array.all_eq_true_iff_forall_mem.mp all x (Array.mem_toList_iff.mp inside)
          cases x with
          | terminal t => cases null
          | nonterminal m => exact sound m (by simpa [Symbol.isIn] using null)
      · exact sound n member

theorem vanishes_of_mem_nullableFrom (nulls : BitSet Nonterminal)
    (sound : ∀ n ∈ nulls, g.Vanishes [.nonterminal n]) :
    ∀ n ∈ g.nullableFrom nulls, g.Vanishes [.nonterminal n] := by
  induction nulls using nullableFrom.induct g with
  | case1 nulls fixed => rwa [nullableFrom, if_pos fixed]
  | case2 nulls fixed ih =>
      rw [nullableFrom, if_neg fixed]
      exact ih (vanishes_of_mem_foldl_addNullable g.productions nulls (fun _ => id) sound)

theorem left_mem_nullable {id : ProductionId} {p : Production} (found : g.production? id = some p)
    (all : ∀ x ∈ p.right, x.isIn g.nullable = true) : p.left ∈ g.nullable :=
  nullablePass_nullableFrom ∅ p.left
    (left_mem_foldl_addNullable g.productions g.nullable p (mem_productions.mpr ⟨id, found⟩) all)

theorem isIn_nullable_of_vanishes {β : List Symbol} (vanishes : g.Vanishes β) :
    ∀ x ∈ β, x.isIn g.nullable = true := by
  induction vanishes using Relation.ReflTransGen.head_induction_on with
  | refl => simp
  | head step _ ih =>
      cases step with
      | apply front back id p found =>
          intro x member
          rcases List.mem_append.mp member with before | rest
          · exact ih x (by simp [before])
          · rcases List.mem_cons.mp rest with rfl | behind
            · simp only [Symbol.isIn, decide_eq_true_eq]
              exact left_mem_nullable found fun y inside => ih y (by simp [inside])
            · exact ih x (by simp [behind])

theorem vanishes_of_isIn_nullable {x : Symbol} (null : x.isIn g.nullable = true) : g.Vanishes [x] := by
  cases x with
  | terminal t => cases null
  | nonterminal n =>
      have member : n ∈ g.nullable := of_decide_eq_true null
      exact vanishes_of_mem_nullableFrom ∅ (by simp) n member

theorem isIn_nullable_iff {x : Symbol} : x.isIn g.nullable = true ↔ g.Vanishes [x] :=
  ⟨vanishes_of_isIn_nullable, fun vanishes => isIn_nullable_of_vanishes vanishes x List.mem_cons_self⟩

theorem vanishes_cons_iff {x : Symbol} {β : List Symbol} :
    g.Vanishes (x :: β) ↔ g.Vanishes [x] ∧ g.Vanishes β := by
  constructor
  · intro vanishes
    have null := isIn_nullable_of_vanishes vanishes
    exact ⟨vanishes_of_isIn_nullable (null x List.mem_cons_self),
      vanishes_of_forall fun y member => vanishes_of_isIn_nullable (null y (List.mem_cons_of_mem x member))⟩
  · rintro ⟨here, behind⟩
    exact Derives.append (α := [x]) here behind

def Leads (g : Grammar) (x y : Symbol) : Prop := y ∈ g.leadsTo g.nullable x

theorem mem_leading_append (nulls : BitSet Nonterminal) (front back : List Symbol) (y : Symbol) :
    y ∈ leading nulls (front ++ back) ↔
      y ∈ leading nulls front ∨ (∀ x ∈ front, x.isIn nulls = true) ∧ y ∈ leading nulls back := by
  induction front with
  | nil => simp [leading]
  | cons x front ih =>
      cases null : x.isIn nulls with
      | false => simp [leading, null]
      | true => simp [leading, null, ih, or_assoc]

theorem leading_terminal (nulls : BitSet Nonterminal) (t : Terminal) (ζ : List Symbol) :
    leading nulls (.terminal t :: ζ) = [.terminal t] := by
  simp [leading, Symbol.isIn]

theorem leading_singleton (nulls : BitSet Nonterminal) (x : Symbol) : leading nulls [x] = [x] := by
  simp [leading]

theorem mem_leadsTo {nulls : BitSet Nonterminal} {x y : Symbol} :
    y ∈ g.leadsTo nulls x ↔
      ∃ id p, g.production? id = some p ∧ x = .nonterminal p.left ∧ y ∈ leading nulls p.right.toList := by
  cases x with
  | terminal t => simp [leadsTo]
  | nonterminal n =>
      simp only [leadsTo, List.mem_flatMap, List.mem_filter, mem_productions, decide_eq_true_eq,
        Symbol.nonterminal.injEq]
      constructor
      · rintro ⟨p, ⟨⟨id, found⟩, rfl⟩, among⟩
        exact ⟨id, p, found, rfl, among⟩
      · rintro ⟨id, p, found, rfl, among⟩
        exact ⟨p, ⟨⟨id, found⟩, rfl⟩, among⟩

theorem mem_of_mem_leading {nulls : BitSet Nonterminal} {β : List Symbol} {y : Symbol}
    (among : y ∈ leading nulls β) : ∃ front back, β = front ++ y :: back ∧ ∀ x ∈ front, x.isIn nulls = true := by
  induction β with
  | nil => simp [leading] at among
  | cons x β ih =>
      rcases List.mem_cons.mp among with rfl | later
      · exact ⟨[], β, rfl, by simp⟩
      · split at later
        · rename_i null
          obtain ⟨front, back, rfl, all⟩ := ih later
          refine ⟨x :: front, back, rfl, fun z member => ?_⟩
          rcases List.mem_cons.mp member with rfl | inside
          · exact null
          · exact all z inside
        · simp at later

theorem derives_of_mem_leading {β : List Symbol} {y : Symbol} (among : y ∈ leading g.nullable β) :
    ∃ ζ, g.Derives β (y :: ζ) := by
  obtain ⟨front, back, rfl, all⟩ := mem_of_mem_leading among
  have vanishes : g.Vanishes front := vanishes_of_forall fun x member => vanishes_of_isIn_nullable (all x member)
  exact ⟨back, vanishes.append .refl⟩

theorem derives_of_leads {x y : Symbol} (path : Relation.ReflTransGen g.Leads x y) :
    ∃ ζ, g.Derives [x] (y :: ζ) := by
  induction path with
  | refl => exact ⟨[], .refl⟩
  | tail _ step ih =>
      obtain ⟨ζ, front⟩ := ih
      obtain ⟨id, p, found, rfl, among⟩ := mem_leadsTo.mp step
      obtain ⟨η, inner⟩ := derives_of_mem_leading among
      have whole := Derives.append (β := ζ) ((derives_production found).trans inner) .refl
      exact ⟨η ++ ζ, front.trans whole⟩

theorem leads_of_derives {β : List Symbol} {t : Terminal} (begins : g.Begins β t) :
    ∃ x ∈ leading g.nullable β, Relation.ReflTransGen g.Leads x (.terminal t) := by
  obtain ⟨ζ, path⟩ := begins
  induction path using Relation.ReflTransGen.head_induction_on with
  | refl => exact ⟨.terminal t, by simp [leading_terminal], .refl⟩
  | head step _ ih =>
      obtain ⟨x, among, leads⟩ := ih
      cases step with
      | apply front back id p found =>
          rw [mem_leading_append, mem_leading_append] at among
          rcases among with before | ⟨clear, inside | ⟨gone, behind⟩⟩
          · exact ⟨x, (mem_leading_append _ _ _ _).mpr (.inl before), leads⟩
          · -- The terminal has come out of the nonterminal, which leads to it over one symbol more.
            refine ⟨.nonterminal p.left, ?_, .head (mem_leadsTo.mpr ⟨id, p, found, rfl, inside⟩) leads⟩
            exact (mem_leading_append _ _ _ _).mpr (.inr ⟨clear, List.mem_cons_self⟩)
          · refine ⟨x, (mem_leading_append _ _ _ _).mpr (.inr ⟨clear, ?_⟩), leads⟩
            have null : (Symbol.nonterminal p.left).isIn g.nullable = true := by
              simp only [Symbol.isIn, decide_eq_true_eq]
              exact left_mem_nullable found fun y member => gone y (Array.mem_toList_iff.mpr member)
            rw [leading, if_pos null]
            exact List.mem_cons_of_mem _ behind

-- All symbols with a number: there are as many as a search for the symbols led to may find.
def symbols (g : Grammar) : List Symbol :=
  (List.range g.terminals.size).map (fun i => .terminal ⟨i⟩) ++
    (List.range g.nonterminals.size).map (fun i => .nonterminal ⟨i⟩)

theorem mem_symbols {x : Symbol} : x ∈ g.symbols ↔ g.Knows x := by
  rcases x with ⟨⟨i⟩⟩ | ⟨⟨i⟩⟩ <;> simp [symbols, Knows]

theorem WellFormed.mem_leads_iff (wf : g.WellFormed) {x : Symbol} (known : g.Knows x) (y : Symbol) :
    y ∈ (g.leads g.nullable x).toList ↔ Relation.ReflTransGen g.Leads x y := by
  have small : (g.leads g.nullable x).size ≤ g.terminals.size + g.nonterminals.size := by
    have bound := Numbering.size_reach_le (g.leadsTo g.nullable) (g.terminals.size + g.nonterminals.size) [x] g.symbols
      (by simpa [mem_symbols] using known) (fun a _ b step => by
        obtain ⟨id, p, found, -, among⟩ := mem_leadsTo.mp step
        obtain ⟨front, back, split, -⟩ := mem_of_mem_leading among
        refine mem_symbols.mpr (wf.knows_right found (Array.mem_toList_iff.mp ?_))
        simp [split])
    rw [leads]
    simpa [symbols] using bound
  rw [leads, Numbering.mem_reach_iff small]
  simp only [List.mem_singleton, exists_eq_left]
  rfl

theorem WellFormed.mem_firstOf_iff (wf : g.WellFormed) {n : Nonterminal} (known : g.Knows (.nonterminal n))
    (t : Terminal) : t ∈ g.firstOf g.nullable n ↔ g.Begins [.nonterminal n] t := by
  rw [firstOf, BitSet.mem_ofList, List.mem_filterMap]
  constructor
  · rintro ⟨x, member, same⟩
    cases x with
    | terminal u =>
        cases same
        exact derives_of_leads ((wf.mem_leads_iff known _).mp member)
    | nonterminal m => cases same
  · intro begins
    obtain ⟨x, among, path⟩ := leads_of_derives begins
    rw [leading_singleton, List.mem_singleton] at among
    subst among
    exact ⟨.terminal t, (wf.mem_leads_iff known _).mpr path, rfl⟩

theorem not_begins_nil (t : Terminal) : ¬ g.Begins [] t := by
  intro begins
  obtain ⟨x, among, -⟩ := leads_of_derives begins
  simp [leading] at among

theorem begins_terminal_iff {t u : Terminal} {β : List Symbol} : g.Begins (.terminal u :: β) t ↔ t = u := by
  constructor
  · intro begins
    obtain ⟨x, among, path⟩ := leads_of_derives begins
    rw [leading_terminal, List.mem_singleton] at among
    subst among
    rcases Relation.ReflTransGen.cases_head path with same | ⟨y, step, -⟩
    · exact (Symbol.terminal.inj same).symm
    · simp [Leads, leadsTo] at step
  · rintro rfl
    exact ⟨β, .refl⟩

theorem begins_of_derives {β ζ : List Symbol} {x : Symbol} (front : g.Derives β (x :: ζ)) {t : Terminal}
    (begins : g.Begins [x] t) : g.Begins β t := by
  obtain ⟨η, tail⟩ := begins
  exact ⟨η ++ ζ, front.trans (Derives.append (β := ζ) tail .refl)⟩

theorem begins_cons_iff {x : Symbol} {β : List Symbol} {t : Terminal} :
    g.Begins (x :: β) t ↔ g.Begins [x] t ∨ g.Vanishes [x] ∧ g.Begins β t := by
  constructor
  · intro begins
    obtain ⟨y, among, path⟩ := leads_of_derives begins
    have tail : g.Begins [y] t := derives_of_leads path
    rw [leading] at among
    rcases List.mem_cons.mp among with rfl | later
    · exact .inl tail
    · split at later
      · rename_i null
        obtain ⟨η, front⟩ := derives_of_mem_leading later
        exact .inr ⟨vanishes_of_isIn_nullable null, begins_of_derives front tail⟩
      · simp at later
  · rintro (⟨ζ, here⟩ | ⟨gone, ζ, behind⟩)
    · exact ⟨ζ ++ β, Derives.append (β := β) here .refl⟩
    · exact ⟨ζ, Derives.append (α := [x]) gone behind⟩

end Grammar

namespace Context

variable {g : Grammar}

theorem isNullable_exact {x : Symbol} (known : g.Knows x) :
    ∃ b, g.context.isNullable x = .ok b ∧ (b = true ↔ g.Vanishes [x]) := by
  cases x with
  | terminal u => exact ⟨false, if_pos known, by rw [← Grammar.isIn_nullable_iff, Symbol.isIn]⟩
  | nonterminal n =>
      have bound : n.index < g.nonterminals.size := known
      refine ⟨decide (n ∈ g.nullable), ?_, by rw [← Grammar.isIn_nullable_iff, Symbol.isIn]⟩
      simp only [isNullable, Grammar.context, List.size_toArray, List.length_map, List.length_range, if_pos bound]
      rfl

variable (wf : g.WellFormed)
include wf

theorem first_exact {x : Symbol} (known : g.Knows x) :
    ∃ set, g.context.first x = .ok set ∧ ∀ t, t ∈ set ↔ g.Begins [x] t := by
  cases x with
  | terminal u => exact ⟨{u}, if_pos known, fun t => by rw [BitSet.mem_singleton, Grammar.begins_terminal_iff]⟩
  | nonterminal n =>
      refine ⟨g.firstOf g.nullable n, ?_, wf.mem_firstOf_iff known⟩
      have bound : n.index < g.nonterminals.size := known
      simp [first, Grammar.context, bound]

theorem prospect_exact (β : List Symbol) (known : ∀ x ∈ β, g.Knows x) :
    ∃ o, g.context.prospect β = .ok o ∧ (∀ t, t ∈ o.first ↔ g.Begins β t) ∧
      (o.nullable = true ↔ g.Vanishes β) := by
  induction β with
  | nil =>
      refine ⟨⟨∅, true⟩, rfl, fun t => ?_, iff_of_true rfl .refl⟩
      exact iff_of_false (BitSet.not_mem_empty t) (Grammar.not_begins_nil t)
  | cons x β ih =>
      obtain ⟨set, first, exact⟩ := first_exact wf (known x List.mem_cons_self)
      obtain ⟨b, null, vanishes⟩ := isNullable_exact (known x List.mem_cons_self)
      obtain ⟨o, behind, firsts, nullable⟩ := ih fun y member => known y (List.mem_cons_of_mem x member)
      cases b with
      | false =>
          have stays : ¬ g.Vanishes [x] := fun gone => by simpa using vanishes.mpr gone
          refine ⟨⟨set, false⟩, ?_, fun t => ?_, ?_⟩
          · rw [prospect, first, null]
            rfl
          · rw [Grammar.begins_cons_iff, exact]
            simp [stays]
          · rw [Grammar.vanishes_cons_iff]
            simp [stays]
      | true =>
          have gone : g.Vanishes [x] := vanishes.mp rfl
          refine ⟨⟨set ∪ o.first, o.nullable⟩, ?_, fun t => ?_, ?_⟩
          · rw [prospect, first, null, behind]
            rfl
          · rw [Grammar.begins_cons_iff, BitSet.mem_union, exact, firsts]
            simp [gone]
          · rw [Grammar.vanishes_cons_iff, nullable]
            simp [gone]

end Context

end Lookahead
