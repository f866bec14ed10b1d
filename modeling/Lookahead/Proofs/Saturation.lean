import Lookahead.Saturation
import Lookahead.Proofs.Canonical
import Lookahead.Proofs.Context
import Lookahead.Proofs.Family
import Mathlib.Data.List.ProdSigma

set_option autoImplicit false

namespace Lookahead

namespace Grammar

variable {g : Grammar}

theorem markNullable_eq (nulls : BitSet Nonterminal) (changed : Bool) (p : Production) :
    markNullable (nulls, changed) p = (addNullable nulls p, changed || decide (¬ addNullable nulls p ⊆ nulls)) := by
  unfold markNullable addNullable
  by_cases all : p.right.all (Symbol.isIn nulls) = true
  · have grown : p.left ∉ nulls ↔ ¬ nulls.insert p.left ⊆ nulls := by
      refine not_congr ⟨fun old n member => ?_, fun below => below _ (BitSet.mem_insert.mpr (.inr rfl))⟩
      rcases BitSet.mem_insert.mp member with held | rfl
      · exact held
      · exact old
    simp only [all, if_true, decide_eq_decide.mpr grown]
  · simp [all, BitSet.subset_refl]

theorem foldl_markNullable (ps : List Production) (nulls : BitSet Nonterminal) (changed : Bool) :
    ps.foldl markNullable (nulls, changed) =
      (ps.foldl addNullable nulls, changed || decide (¬ ps.foldl addNullable nulls ⊆ nulls)) := by
  induction ps generalizing nulls changed with
  | nil => simp [BitSet.subset_refl]
  | cons p ps ih =>
      have here := subset_addNullable nulls p
      have later := subset_foldl_addNullable ps (addNullable nulls p)
      have grown : (¬ addNullable nulls p ⊆ nulls ∨ ¬ ps.foldl addNullable (addNullable nulls p) ⊆ addNullable nulls p) ↔
          ¬ ps.foldl addNullable (addNullable nulls p) ⊆ nulls := by
        rw [← not_and_or, not_iff_not]
        constructor
        · intro ⟨first, second⟩ n member
          exact first n (second n member)
        · intro still
          exact ⟨fun n member => still n (later n member), fun n member => here n (still n member)⟩
      rw [List.foldl_cons, List.foldl_cons, markNullable_eq, ih, Bool.or_assoc, ← Bool.decide_or, decide_eq_decide.mpr grown]

theorem repeats_nullableFrom (nulls : BitSet Nonterminal) :
    ∃ passes, passes ≤ g.openProductions nulls + 1 ∧ Repeats g.markPass passes nulls (g.nullableFrom nulls) := by
  induction nulls using nullableFrom.induct g with
  | case1 nulls fixed =>
      have same : g.nullablePass nulls = nulls := BitSet.subset_antisymm fixed (subset_foldl_addNullable _ _)
      refine ⟨1, Nat.le_add_left _ _, .stop _ _ ?_⟩
      rw [nullableFrom, if_pos fixed, markPass, foldl_markNullable]
      change Except.ok (g.nullablePass nulls, false || decide (¬ g.nullablePass nulls ⊆ nulls)) = _
      simp [same, BitSet.subset_refl]
  | case2 nulls grown ih =>
      obtain ⟨passes, bound, rest⟩ := ih
      have fewer := openProductions_nullablePass_lt g nulls grown
      refine ⟨passes + 1, by omega, ?_⟩
      rw [nullableFrom, if_neg grown]
      refine .again passes _ _ _ ?_ rest
      rw [markPass, foldl_markNullable]
      change Except.ok (g.nullablePass nulls, false || decide (¬ g.nullablePass nulls ⊆ nulls)) = _
      simp [grown]

end Grammar

def firstIn (firsts : Array TerminalSet) : Symbol → TerminalSet
  | .terminal t => {t}
  | .nonterminal n => firsts.getD n.index ∅

namespace Grammar

variable {g : Grammar} {firsts : Array TerminalSet}

structure Begun (g : Grammar) (firsts : Array TerminalSet) : Prop where
  size : firsts.size = g.nonterminals.size
  begins : ∀ n, ∀ t ∈ firstIn firsts (.nonterminal n), g.Begins [.nonterminal n] t

structure Imposes (g : Grammar) (c : Constraint) : Prop where
  whole : g.Knows (.nonterminal c.whole)
  part : g.Knows c.part
  begins : ∀ t, g.Begins [c.part] t → g.Begins [.nonterminal c.whole] t

def Satisfies (firsts : Array TerminalSet) (c : Constraint) : Prop :=
  firstIn firsts c.part ⊆ firstIn firsts (.nonterminal c.whole)

structure Enforces (g : Grammar) (cs : List Constraint) (firsts : Array TerminalSet) (changed : Bool)
    (firsts' : Array TerminalSet) : Prop where
  begun : g.Begun firsts'
  grows : ∀ x, firstIn firsts x ⊆ firstIn firsts' x
  still : changed = false → firsts' = firsts ∧ ∀ c ∈ cs, Satisfies firsts c
  fresh : changed = true → ∃ n t, t ∈ firstIn firsts' (.nonterminal n) ∧ t ∉ firstIn firsts (.nonterminal n)

theorem Begun.lookupFirst (begun : g.Begun firsts) {x : Symbol} (known : g.Knows x) :
    lookupFirst firsts x = .ok (firstIn firsts x) := by
  cases x with
  | terminal t => rfl
  | nonterminal n =>
      have bound : n.index < firsts.size := begun.size ▸ known
      simp [Lookahead.lookupFirst, firstIn, bound]

theorem Begun.mem_firstIn (begun : g.Begun firsts) {x : Symbol} {t : Terminal} (member : t ∈ firstIn firsts x) :
    g.Begins [x] t := by
  cases x with
  | terminal u => exact begins_terminal_iff.mpr (BitSet.mem_singleton.mp member)
  | nonterminal n => exact begun.begins n t member

theorem mem_firstIn_set {n : Nonterminal} (bound : n.index < firsts.size) (new : TerminalSet) (x : Symbol) (t : Terminal) :
    t ∈ firstIn (firsts.setIfInBounds n.index (firstIn firsts (.nonterminal n) ∪ new)) x ↔
      t ∈ firstIn firsts x ∨ x = .nonterminal n ∧ t ∈ new := by
  cases x with
  | terminal u => simp [firstIn]
  | nonterminal m =>
      by_cases same : m = n
      · subst same
        simp [firstIn, bound]
      · have apart : n.index ≠ m.index := fun equal => same (by cases m; cases n; simp_all)
        simp [firstIn, apart, same]

theorem enforce_enforces (begun : g.Begun firsts) {c : Constraint} (imposes : g.Imposes c) (changed : Bool) :
    ∃ firsts' changed', c.enforce (firsts, changed) = .ok (firsts', changed || changed') ∧
      g.Enforces [c] firsts changed' firsts' := by
  have bound : c.whole.index < firsts.size := begun.size ▸ imposes.whole
  have whole := begun.lookupFirst imposes.whole
  have part := begun.lookupFirst imposes.part
  refine ⟨_, _, by simp only [Constraint.enforce, whole, part, bind, Except.bind, pure, Except.pure]; rfl, ?_⟩
  have members := mem_firstIn_set bound (firstIn firsts c.part)
  refine ⟨⟨by simp [begun.size], fun n t member => ?_⟩, fun x t member => (members x t).mpr (.inl member), fun still => ?_,
    fun fresh => ?_⟩
  · rcases (members _ t).mp member with old | ⟨same, new⟩
    · exact begun.begins n t old
    · exact same ▸ imposes.begins t (begun.mem_firstIn new)
  · have satisfied : firstIn firsts c.part ⊆ firstIn firsts (.nonterminal c.whole) := by simpa using still
    refine ⟨?_, fun d member => List.mem_singleton.mp member ▸ satisfied⟩
    have same : firstIn firsts (.nonterminal c.whole) ∪ firstIn firsts c.part = firstIn firsts (.nonterminal c.whole) :=
      BitSet.subset_antisymm (fun t member => (BitSet.mem_union.mp member).elim id (satisfied t))
        fun t member => BitSet.mem_union.mpr (.inl member)
    rw [same]
    simp [firstIn, bound, Array.setIfInBounds]
  · obtain ⟨t, new, old⟩ : ∃ t, t ∈ firstIn firsts c.part ∧ t ∉ firstIn firsts (.nonterminal c.whole) := by
      simpa [HasSubset.Subset] using fresh
    exact ⟨c.whole, t, (members _ t).mpr (.inr ⟨rfl, new⟩), old⟩

theorem Enforces.append {cs ds : List Constraint} {firsts' firsts'' : Array TerminalSet} {changed changed' : Bool}
    (first : g.Enforces cs firsts changed firsts') (second : g.Enforces ds firsts' changed' firsts'') :
    g.Enforces (cs ++ ds) firsts (changed || changed') firsts'' where
  begun := second.begun
  grows x t member := second.grows x t (first.grows x t member)
  still none := by
    obtain ⟨before, behind⟩ := Bool.or_eq_false_iff.mp none
    obtain ⟨rfl, satisfied⟩ := first.still before
    obtain ⟨rfl, satisfied'⟩ := second.still behind
    exact ⟨rfl, fun c member => (List.mem_append.mp member).elim (satisfied c) (satisfied' c)⟩
  fresh some := by
    rcases Bool.or_eq_true_iff.mp some with before | behind
    · obtain ⟨n, t, new, old⟩ := first.fresh before
      exact ⟨n, t, second.grows _ t new, old⟩
    · obtain ⟨n, t, new, old⟩ := second.fresh behind
      exact ⟨n, t, new, fun held => old (first.grows _ t held)⟩

theorem foldlM_enforces (cs : List Constraint) (imposes : ∀ c ∈ cs, g.Imposes c) (begun : g.Begun firsts) (changed : Bool) :
    ∃ firsts' changed', cs.foldlM Constraint.enforce (firsts, changed) = .ok (firsts', changed || changed') ∧
      g.Enforces cs firsts changed' firsts' := by
  induction cs generalizing firsts changed with
  | nil => exact ⟨firsts, false, by simp [pure, Except.pure], begun, fun _ _ => id, by simp, by simp⟩
  | cons c cs ih =>
      obtain ⟨firsts', changed', ran, here⟩ := enforce_enforces begun (imposes c List.mem_cons_self) changed
      obtain ⟨firsts'', changed'', rest, later⟩ :=
        ih (fun d member => imposes d (List.mem_cons_of_mem c member)) here.begun (changed || changed')
      refine ⟨firsts'', changed' || changed'', ?_, here.append later⟩
      rw [List.foldlM_cons, ran, ← Bool.or_assoc]
      exact rest

theorem mem_constraints {nulls : BitSet Nonterminal} {c : Constraint} : c ∈ g.constraints nulls ↔
    ∃ id p, g.production? id = some p ∧ c.whole = p.left ∧ c.part ≠ .nonterminal p.left ∧
      c.part ∈ leading nulls p.right.toList := by
  simp only [constraints, Production.constraints, List.mem_flatMap, mem_productions, List.mem_map, List.mem_filter,
    decide_eq_true_eq]
  constructor
  · rintro ⟨p, ⟨id, found⟩, x, ⟨among, other⟩, rfl⟩
    exact ⟨id, p, found, rfl, other, among⟩
  · rintro ⟨id, p, found, left, other, among⟩
    exact ⟨p, ⟨id, found⟩, c.part, ⟨among, other⟩, by rw [← left]⟩

theorem Leads.begins {x y : Symbol} (step : g.Leads x y) {t : Terminal} (begins : g.Begins [y] t) : g.Begins [x] t := by
  obtain ⟨ζ, path⟩ := derives_of_leads (.single step)
  exact begins_of_derives path begins

theorem WellFormed.imposes (wf : g.WellFormed) {c : Constraint} (member : c ∈ g.constraints g.nullable) : g.Imposes c := by
  obtain ⟨id, p, found, left, -, among⟩ := mem_constraints.mp member
  obtain ⟨front, back, split, -⟩ := mem_of_mem_leading among
  refine ⟨left ▸ wf.knows_left found, wf.knows_right found (Array.mem_toList_iff.mp (by simp [split])), fun t begins => ?_⟩
  exact Leads.begins (mem_leadsTo.mpr ⟨id, p, found, congrArg _ left, among⟩) begins

-- Once all constraints are satisfied, a set holds whatever its symbol leads to: what a symbol would pass on to
-- itself it has.
theorem mem_firstIn_of_leads (satisfied : ∀ c ∈ g.constraints g.nullable, Satisfies firsts c) {x : Symbol} {t : Terminal}
    (path : Relation.ReflTransGen g.Leads x (.terminal t)) : t ∈ firstIn firsts x := by
  induction path using Relation.ReflTransGen.head_induction_on with
  | refl => exact BitSet.mem_singleton.mpr rfl
  | head step _ ih =>
      rename_i _ y _
      obtain ⟨id, p, found, rfl, among⟩ := mem_leadsTo.mp step
      by_cases same : y = .nonterminal p.left
      · exact same ▸ ih
      · exact satisfied ⟨p.left, y⟩ (mem_constraints.mpr ⟨id, p, found, rfl, same, among⟩) t ih

-- The places for terminals in the sets that are still free.
def room (g : Grammar) (firsts : Array TerminalSet) : Nat :=
  (List.range g.nonterminals.size ×ˢ List.range g.terminals.size).countP fun (n, t) =>
    decide (⟨t⟩ ∉ firstIn firsts (.nonterminal ⟨n⟩))

theorem room_le (firsts : Array TerminalSet) : g.room firsts ≤ g.nonterminals.size * g.terminals.size := by
  calc g.room firsts ≤ _ := List.countP_le_length
    _ = g.nonterminals.size * g.terminals.size := by
        rw [List.length_product, List.length_range, List.length_range]

theorem Begun.knows (wf : g.WellFormed) (begun : g.Begun firsts) {n : Nonterminal} {t : Terminal}
    (member : t ∈ firstIn firsts (.nonterminal n)) : g.Knows (.nonterminal n) ∧ g.Knows (.terminal t) := by
  have known : g.Knows (.nonterminal n) := by
    change n.index < g.nonterminals.size
    rw [← begun.size]
    refine Nat.lt_of_not_le fun outside => ?_
    simp [firstIn, Array.getElem?_eq_none outside] at member
  obtain ⟨ζ, path⟩ := begun.begins n t member
  exact ⟨known, wf.knows_of_derives path (by simpa using known) _ List.mem_cons_self⟩

theorem Enforces.room_lt (wf : g.WellFormed) {cs : List Constraint} {firsts' : Array TerminalSet}
    (enforces : g.Enforces cs firsts true firsts') : g.room firsts' < g.room firsts := by
  obtain ⟨n, t, new, old⟩ := enforces.fresh rfl
  obtain ⟨knownN, knownT⟩ := enforces.begun.knows wf new
  refine countP_lt_countP _ _ _ (fun (m, u) _ absent => ?_) (n.index, t.index)
    (List.mem_product.mpr ⟨List.mem_range.mpr knownN, List.mem_range.mpr knownT⟩) (decide_eq_false fun absent => absent new)
    (decide_eq_true old)
  have absent' := of_decide_eq_true absent
  exact decide_eq_true fun held => absent' (enforces.grows _ _ held)

-- Every pass but the last takes up room.
theorem repeats_solvePass (wf : g.WellFormed) (firsts : Array TerminalSet) (begun : g.Begun firsts) :
    ∃ passes firsts', passes ≤ g.room firsts + 1 ∧ Repeats (g.solvePass g.nullable) passes firsts firsts' ∧
      g.Begun firsts' ∧ ∀ c ∈ g.constraints g.nullable, Satisfies firsts' c := by
  obtain ⟨firsts', changed, ran, pass⟩ := foldlM_enforces _ (fun c => wf.imposes) begun false
  cases changed with
  | false =>
      obtain ⟨rfl, satisfied⟩ := pass.still rfl
      exact ⟨1, firsts', Nat.le_add_left _ _, .stop _ _ ran, begun, satisfied⟩
  | true =>
      have fewer := pass.room_lt wf
      obtain ⟨passes, firsts'', bound, rest, begun', satisfied⟩ := repeats_solvePass wf firsts' pass.begun
      exact ⟨passes + 1, firsts'', by omega, .again _ _ _ _ ran rest, begun', satisfied⟩
termination_by g.room firsts

theorem Begun.eq_firsts (wf : g.WellFormed) (begun : g.Begun firsts)
    (satisfied : ∀ c ∈ g.constraints g.nullable, Satisfies firsts c) : firsts = g.context.firsts := by
  have size : firsts.size = g.context.firsts.size := by simp [context, begun.size]
  refine Array.ext size fun i here there => BitSet.ext fun t => ?_
  have known : g.Knows (.nonterminal ⟨i⟩) := by
    change i < g.nonterminals.size
    exact begun.size ▸ here
  have computed : g.context.firsts[i] = g.firstOf g.nullable ⟨i⟩ := by simp [context]
  have held : firsts[i] = firstIn firsts (.nonterminal ⟨i⟩) := by simp [firstIn, here]
  rw [computed, wf.mem_firstOf_iff known, held]
  constructor
  · exact begun.begins ⟨i⟩ t
  · intro begins
    obtain ⟨x, among, path⟩ := leads_of_derives begins
    rw [leading_singleton, List.mem_singleton] at among
    exact among ▸ mem_firstIn_of_leads satisfied path

theorem begun_noFirsts : g.Begun g.noFirsts where
  size := Array.size_replicate
  begins n t member := by
    have none : firstIn g.noFirsts (.nonterminal n) = ∅ := by
      simp only [firstIn, noFirsts, Array.getD_eq_getD_getElem?, Array.getElem?_replicate]
      split <;> rfl
    exact absurd (none ▸ member) (BitSet.not_mem_empty t)

theorem WellFormed.declares_of_derives (wf : g.WellFormed) {β γ : List Symbol} (path : g.Derives β γ)
    (declared : ∀ x ∈ β, g.Declares x) : ∀ x ∈ γ, g.Declares x := by
  induction path with
  | refl => exact declared
  | tail _ step ih =>
      cases step with
      | apply front back id p found =>
          intro x member
          rcases List.mem_append.mp member with before | rest
          · exact ih x (by simp [before])
          · rcases List.mem_append.mp rest with inside | behind
            · cases id with
              | rule i => exact wf.right p (Array.mem_of_getElem? found) x (Array.mem_toList_iff.mp inside)
              | accept =>
                  cases found
                  exact absurd rfl (ih (.nonterminal .start) (by simp [accept])).2.2
            · exact ih x (by simp [behind])

theorem WellFormed.not_begins_endOfInput (wf : g.WellFormed) {x : Symbol} (declared : g.Declares x) :
    ¬ g.Begins [x] .endOfInput := by
  intro ⟨ζ, path⟩
  exact (wf.declares_of_derives path (by simpa using declared) _ List.mem_cons_self).2.1 rfl

theorem WellFormed.begins_start_iff (wf : g.WellFormed) :
    g.Begins [.nonterminal .start] .endOfInput ↔ g.Vanishes [.nonterminal g.startSymbol] := by
  constructor
  · intro begins
    obtain ⟨x, among, path⟩ := leads_of_derives begins
    obtain rfl := List.mem_singleton.mp (leading_singleton g.nullable _ ▸ among)
    rcases Relation.ReflTransGen.cases_head path with same | ⟨y, step, rest⟩
    · cases same
    · obtain ⟨id, p, found, left, among⟩ := mem_leadsTo.mp step
      obtain rfl := (wf.left_eq_start_iff found).mp (Symbol.nonterminal.inj left).symm
      cases found
      obtain ⟨ζ, front⟩ := derives_of_mem_leading among
      have whole : g.Begins [.nonterminal g.startSymbol, .terminal .endOfInput] .endOfInput :=
        begins_of_derives front (derives_of_leads rest)
      exact ((begins_cons_iff.mp whole).resolve_left (wf.not_begins_endOfInput wf.start)).1
  · intro gone
    obtain ⟨ζ, path⟩ : g.Begins [.nonterminal g.startSymbol, .terminal .endOfInput] .endOfInput :=
      begins_cons_iff.mpr (.inr ⟨gone, [], .refl⟩)
    have found : g.production? .accept = some g.accept := rfl
    exact ⟨ζ, (derives_production found).trans path⟩

theorem context_nullable_exact (g : Grammar) :
    (∃ passes, passes ≤ g.productions.length + 1 ∧ Repeats g.markPass passes ∅ g.context.nullable) ∧
      ∀ x, g.Knows x → ∃ null, g.context.isNullable x = .ok null ∧ (null = true ↔ g.Derives [x] []) := by
  obtain ⟨passes, bound, repeats⟩ := repeats_nullableFrom (g := g) ∅
  have most : g.openProductions ∅ ≤ g.productions.length := List.countP_le_length
  exact ⟨⟨passes, by omega, repeats⟩, fun x known => Context.isNullable_exact known⟩

theorem context_nullable_exact_composed :
    (∃ passes, passes ≤ 10 ∧ Repeats composed.markPass passes ∅ composed.context.nullable) ∧
    composed.Knows (Example.n 1) ∧ composed.Knows (Example.n 2) ∧ composed.context.isNullable (Example.n 1) = .ok true ∧
      composed.Derives [Example.n 1] [] ∧ ¬ composed.Derives [Example.n 2] [] := by
  have statements : composed.context.isNullable (Example.n 1) = .ok true := by decide +kernel
  have statement : composed.context.isNullable (Example.n 2) = .ok false := by decide +kernel
  have known : composed.Knows (Example.n 1) ∧ composed.Knows (Example.n 2) :=
    ⟨(by decide : 1 < 6), (by decide : 2 < 6)⟩
  obtain ⟨repeats, exact⟩ := context_nullable_exact composed
  obtain ⟨null, answer, vanishes⟩ := exact (Example.n 1) known.1
  obtain ⟨null', answer', vanishes'⟩ := exact (Example.n 2) known.2
  rw [statements, Except.ok.injEq] at answer
  rw [statement, Except.ok.injEq] at answer'
  subst answer answer'
  exact ⟨repeats, known.1, known.2, statements, vanishes.mp rfl, fun gone => Bool.false_ne_true (vanishes'.mpr gone)⟩

theorem context_first_exact (accepted : g.Accepted) :
    (∃ passes, passes ≤ g.nonterminals.size * g.terminals.size + 1 ∧
      Repeats (g.solvePass g.context.nullable) passes g.noFirsts g.context.firsts) ∧
    (∀ x, g.Knows x → ∃ set, g.context.first x = .ok set ∧ ∀ t, t ∈ set ↔ ∃ ζ, g.Derives [x] (.terminal t :: ζ)) ∧
    (∀ t, g.Knows (.terminal t) → g.context.first (.terminal t) = .ok {t}) ∧
    (∃ set, g.context.first (.nonterminal .start) = .ok set ∧
      (.endOfInput ∈ set ↔ g.context.isNullable (.nonterminal g.startSymbol) = .ok true)) ∧
    ∀ x, g.Declares x → ∃ set, g.context.first x = .ok set ∧ .endOfInput ∉ set := by
  have wf := accepted.wellFormed
  refine ⟨?_, fun x known => Context.first_exact wf known, fun t known => if_pos known, ?_, fun x declared => ?_⟩
  · obtain ⟨passes, firsts, bound, repeats, begun, satisfied⟩ := repeats_solvePass wf g.noFirsts begun_noFirsts
    have most : g.room g.noFirsts ≤ g.nonterminals.size * g.terminals.size := room_le _
    exact ⟨passes, by omega, begun.eq_firsts wf satisfied ▸ repeats⟩
  · obtain ⟨set, answer, exact⟩ := Context.first_exact wf (x := .nonterminal .start) wf.nonterminals
    obtain ⟨null, answer', vanishes⟩ := Context.isNullable_exact wf.start.1
    refine ⟨set, answer, ?_⟩
    rw [exact, wf.begins_start_iff, ← vanishes, answer', Except.ok.injEq]
  · obtain ⟨set, answer, exact⟩ := Context.first_exact wf declared.1
    exact ⟨set, answer, fun member => wf.not_begins_endOfInput declared ((exact _).mp member)⟩

theorem context_first_exact_composed : composed.Accepted ∧
    (∃ passes, passes ≤ 43 ∧
      Repeats (composed.solvePass composed.context.nullable) passes composed.noFirsts composed.context.firsts) ∧
    composed.Knows (.nonterminal .start) ∧ composed.context.first (.nonterminal .start) = .ok (.ofList [.endOfInput, ⟨1⟩]) ∧
    (∃ ζ, composed.Derives [.nonterminal .start] (.terminal ⟨1⟩ :: ζ)) ∧ composed.Knows (Example.t 1) ∧
    composed.context.first (Example.t 1) = .ok {⟨1⟩} ∧ composed.context.isNullable (Example.n 1) = .ok true ∧
    composed.Declares (Example.n 1) ∧ ∃ set, composed.context.first (Example.n 1) = .ok set ∧ .endOfInput ∉ set := by
  have known : composed.Knows (.nonterminal .start) ∧ composed.Knows (Example.t 1) :=
    ⟨(by decide : 0 < 6), (by decide : 1 < 7)⟩
  have computed : composed.context.first (.nonterminal .start) = .ok (.ofList [.endOfInput, ⟨1⟩]) := by decide +kernel
  obtain ⟨repeats, exact, terminals, ⟨set, answer, ends⟩, declared⟩ := context_first_exact composed_accepted
  obtain ⟨set', answer', members⟩ := exact (.nonterminal .start) known.1
  rw [computed, Except.ok.injEq] at answer answer'
  subst answer answer'
  exact ⟨composed_accepted, repeats, known.1, computed, (members ⟨1⟩).mp (by decide), known.2, terminals ⟨1⟩ known.2,
    ends.mp (by decide), composed_accepted.wellFormed.start, declared (Example.n 1) composed_accepted.wellFormed.start⟩

end Grammar

end Lookahead
