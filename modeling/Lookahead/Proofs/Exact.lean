import Lookahead.Proofs.Passage
import Lookahead.Proofs.Table
import Mathlib.Tactic.IntervalCases

set_option autoImplicit false

namespace Lookahead

open Lookahead.Symbol (ofTerminals)

namespace Grammar

variable {g : Grammar} {a : Automaton}

theorem Stands.of_start (wf : g.WellFormed) {δ : List Symbol} {z : List Terminal} (stands : g.Stands δ .start z) :
    δ = [] ∧ z = [] := by
  generalize same : Nonterminal.start = n at stands
  cases stands with
  | start => exact ⟨rfl, rfl⟩
  | child δ α β n w z id p parent found split tail => exact absurd same.symm (wf.ne_start_of_split found split)

section

variable {F : Set Fact} (wf : g.WellFormed) (returned : g.automaton = .ok a) (closed : g.Closed a F)
include wf returned closed

theorem lookahead_of_stands {δ : List Symbol} {n : Nonterminal} {z : List Terminal} (stands : g.Stands δ n z)
    (declared : n ≠ .start) : ∃ t rest, z = t :: rest ∧ ∀ id q, g.production? id = some q → q.left = n →
      ∃ s i, a.follow 0 δ = .ok s ∧ a.item s i = .ok ⟨id, 0⟩ ∧ .item s i (.lookahead t) ∈ F := by
  induction stands with
  | start => exact absurd rfl declared
  | child δ α β n w z id p parent found split tail ih =>
      -- The item that opens the entries, and what it has to pass on.
      have source : ∃ s k, a.follow 0 (δ ++ α) = .ok s ∧ g.Dotted a s k p α (.nonterminal n :: β) ∧ Active F s k ∧
          (w = [] → ∃ t rest, z = t :: rest ∧ .item s k (.lookahead t) ∈ F) := by
        by_cases outer : p.left = .start
        · obtain rfl := (wf.left_eq_start_iff found).mp outer
          cases found
          obtain ⟨rfl, -⟩ := Stands.of_start wf parent
          obtain ⟨rfl, rfl, rfl⟩ := accept_split split
          refine ⟨0, 0, rfl, dotted_start returned, .inl ⟨rfl, rfl⟩, ?_⟩
          rintro rfl
          cases tail
        · obtain ⟨t, rest, rfl, entry⟩ := ih outer
          obtain ⟨s, i, path, at', known⟩ := entry id p found rfl
          have here : g.Dotted a s i p [] (α ++ .nonterminal n :: β) := ⟨id, at', found, split⟩
          obtain ⟨u, k, path', there, -, kept⟩ :=
            here.follow returned closed (wf.endOfInput_not_mem_of_split found outer split)
          exact ⟨u, k, Automaton.follow_append_iff.mpr ⟨s, path, path'⟩, there, .inr ⟨_, kept _ known⟩,
            fun _ => ⟨t, rest, rfl, kept _ known⟩⟩
      obtain ⟨s, k, path, here, active, behind⟩ := source
      cases w with
      | nil =>
          obtain ⟨t, rest, rfl, known⟩ := behind rfl
          refine ⟨t, rest, rfl, fun id' q found' left => ?_⟩
          subst left
          obtain ⟨i, at', there⟩ := here.enters returned wf found'
          refine ⟨s, i, path, at', closed.passed s k active _ ?_⟩
          exact .lookahead i p α β q.left t here ⟨q, _, there, rfl⟩ tail.derives known
      | cons t w =>
          refine ⟨t, w ++ z, rfl, fun id' q found' left => ?_⟩
          subst left
          obtain ⟨i, at', there⟩ := here.enters returned wf found'
          refine ⟨s, i, path, at', closed.passed s k active _ ?_⟩
          exact .first i p α β q.left t here ⟨q, _, there, rfl⟩ tail.begins

theorem lookahead_complete {id : ProductionId} {p : Production} {α β δ : List Symbol} {t : Terminal} {z : List Terminal}
    (found : g.production? id = some p) (declared : p.left ≠ .start) (split : p.right.toList = α ++ β)
    (stands : g.Stands δ p.left (t :: z)) :
    ∃ s i, a.follow 0 (δ ++ α) = .ok s ∧ a.item s i = .ok ⟨id, α.length⟩ ∧ .item s i (.lookahead t) ∈ F := by
  obtain ⟨u, rest, same, entry⟩ := lookahead_of_stands wf returned closed stands declared
  obtain ⟨rfl, -⟩ := List.cons.inj same
  obtain ⟨s, i, path, at', known⟩ := entry id p found rfl
  have here : g.Dotted a s i p [] (α ++ β) := ⟨id, at', found, split⟩
  obtain ⟨u, k, path', -, same, kept⟩ :=
    here.follow returned closed (wf.endOfInput_not_mem_of_split found declared split)
  exact ⟨u, k, Automaton.follow_append_iff.mpr ⟨s, path, path'⟩, same id at', kept _ known⟩

end

theorem reachable_of_split {id : ProductionId} {p : Production} (wf : g.WellFormed) (found : g.production? id = some p)
    (outer : g.InUse p.left) {α β : List Symbol} {n : Nonterminal}
    (split : p.right.toList = α ++ .nonterminal n :: β) : g.Reachable n := by
  rcases outer with start | ⟨front, back, path⟩
  · obtain rfl := (wf.left_eq_start_iff found).mp start
    cases found
    obtain ⟨-, rfl, -⟩ := accept_split split
    exact ⟨[], [], .refl⟩
  · have step : g.Derives _ (front ++ (p.right.toList ++ back)) := path.tail (.apply front back id p found)
    rw [split] at step
    exact ⟨front ++ α, β ++ back, by simpa using step⟩

theorem reachable_of_derives (wf : g.WellFormed) {β γ : List Symbol} (path : g.Derives β γ)
    (all : ∀ n, .nonterminal n ∈ β → g.Reachable n) : ∀ n, .nonterminal n ∈ γ → g.Reachable n := by
  induction path with
  | refl => exact all
  | tail _ step ih =>
      cases step with
      | apply front back id p found =>
          intro n member
          rcases List.mem_append.mp member with before | rest
          · exact ih n (by simp [before])
          · rcases List.mem_append.mp rest with inside | behind
            · obtain ⟨α, β, split⟩ := List.append_of_mem inside
              exact reachable_of_split wf found (.inr (ih p.left (by simp))) split
            · exact ih n (by simp [behind])

theorem Reachable.knows (wf : g.WellFormed) {n : Nonterminal} (reachable : g.Reachable n) : g.Knows (.nonterminal n) := by
  obtain ⟨front, back, path⟩ := reachable
  exact wf.knows_of_derives path (by simpa using wf.start.1) (.nonterminal n) (by simp)

theorem yields_of_productive {β : List Symbol} (all : ∀ n, .nonterminal n ∈ β → g.Productive n) : ∃ w, g.Yields β w := by
  induction β with
  | nil => exact ⟨[], .nil⟩
  | cons x β ih =>
      obtain ⟨w, rest⟩ := ih fun n member => all n (List.mem_cons_of_mem x member)
      cases x with
      | terminal t => exact ⟨t :: w, .terminal t β w rest⟩
      | nonterminal n =>
          obtain ⟨v, path⟩ := all n List.mem_cons_self
          exact ⟨v ++ w, (yields_of_derives path).append rest⟩

section

variable (wf : g.WellFormed) (productive : ∀ n, g.Reachable n → g.Productive n)
include wf productive

theorem yields_behind {id : ProductionId} {p : Production} (found : g.production? id = some p)
    (outer : g.InUse p.left) {α β γ : List Symbol} (split : p.right.toList = α ++ β)
    (path : g.Derives β γ) : ∃ w, g.Yields γ w := by
  refine yields_of_productive fun n member => productive n (reachable_of_derives wf path (fun m among => ?_) n member)
  obtain ⟨front, back, rfl⟩ := List.append_of_mem among
  exact reachable_of_split (α := α ++ front) wf found outer (by simpa using split)

theorem stands_of_valid {γ : List Symbol} {item : Item} (valid : g.Valid γ item) : ∃ p α β δ z,
    g.production? item.production = some p ∧ p.right.toList = α ++ β ∧ α.length = item.position ∧ γ = δ ++ α ∧
      g.Stands δ p.left z ∧ g.InUse p.left := by
  induction valid with
  | start => exact ⟨g.accept, [], _, [], [], rfl, rfl, rfl, rfl, .start, .inl rfl⟩
  | move γ item x _ after inner ih =>
      obtain ⟨p, α, β, δ, z, found, split, length, rfl, stands, outer⟩ := ih
      obtain ⟨id, n⟩ := item
      obtain rfl : α.length = n := length
      obtain ⟨rest, rfl⟩ := cons_of_symbolAfterDot? found split after
      exact ⟨p, α ++ [x], rest, δ, z, found, by simp [split], by simp [Item.advance], by simp, stands, outer⟩
  | enter γ item n id q _ after found' left ih =>
      obtain ⟨p, α, β, δ, z, found, split, length, rfl, stands, outer⟩ := ih
      obtain ⟨id', m⟩ := item
      obtain rfl : α.length = m := length
      obtain ⟨rest, rfl⟩ := cons_of_symbolAfterDot? found split after
      obtain ⟨w, tail⟩ := yields_behind wf productive found outer (α := α ++ [.nonterminal n]) (β := rest) (by simp [split]) .refl
      subst left
      exact ⟨q, [], _, δ ++ α, w ++ z, found', rfl, rfl, by simp, .child δ α rest q.left w z _ p stands found split tail,
        .inr (reachable_of_split wf found outer split)⟩

end

-- A terminal may follow the production of item `i` where the path ends in state `s`.
def Expects (g : Grammar) (a : Automaton) (s i : Nat) (t : Terminal) : Prop :=
  ∃ id p α β δ z, a.item s i = .ok ⟨id, α.length⟩ ∧ g.production? id = some p ∧ p.left ≠ .start ∧
    p.right.toList = α ++ β ∧ g.Stands δ p.left (t :: z) ∧ a.follow 0 (δ ++ α) = .ok s

theorem closed_expects (wf : g.WellFormed) (returned : g.automaton = .ok a)
    (productive : ∀ n, g.Reachable n → g.Productive n) :
    g.Closed a {fact | ∀ s i t, fact = .item s i (.lookahead t) → g.Expects a s i t} := by
  have entered : ∀ {s i p α β n id t z δ}, g.production? id = some p → p.right.toList = α ++ .nonterminal n :: β →
      g.Enters a s i n → a.follow 0 (δ ++ α) = .ok s → g.Stands (δ ++ α) n (t :: z) → g.Expects a s i t := by
    intro s i p α β n id t z δ found split entry path stands
    obtain ⟨q, ω, ⟨id', atI, found', split'⟩, rfl⟩ := entry
    exact ⟨id', q, [], ω, δ ++ α, z, atI, found', wf.ne_start_of_split found split, split', stands, by simpa using path⟩
  refine ⟨fun l _ s i t same => (by cases same), fun s k _ fact passes s' i' u same => ?_⟩
  subst same
  cases passes with
  | first i p α β n t here entry begins =>
      obtain ⟨id, at', found, split⟩ := here
      obtain ⟨γ, path⟩ := follow_of_item returned at'
      obtain ⟨p', α', β', δ, z, found', split', length, rfl, stands, outer⟩ :=
        stands_of_valid wf productive (valid_of_item wf returned path at')
      rw [found, Option.some.injEq] at found'
      subst found'
      obtain ⟨rfl, -⟩ := List.append_inj (split'.symm.trans split) length
      obtain ⟨ζ, start⟩ := begins
      obtain ⟨w, tail⟩ := yields_behind wf productive found outer (α := α' ++ [.nonterminal n]) (β := β) (by simp [split]) start
      have yields : g.Yields β w := yields_of_derives (start.trans tail.derives)
      cases tail with
      | terminal _ _ w rest => exact entered found split entry path (.child δ α' β n (u :: w) z id p stands found split yields)
  | lookahead i p α β n t here entry gone known =>
      obtain ⟨id, q, γ, τ, δ, z, at', found, declared, split, stands, path⟩ := known s k u rfl
      obtain ⟨rfl, rfl, rfl⟩ := Dotted.unique here ⟨id, at', found, split⟩
      exact entered found split entry path (.child δ α β n [] (u :: z) id p stands found split (yields_of_derives gone))
  | move x t j y step inner known =>
      obtain ⟨id, p, α, β, δ, z, at', found, declared, split, stands, path⟩ := known s k u rfl
      obtain ⟨edge, taken, rfl, moved⟩ := step
      obtain ⟨item, at'', move, there⟩ := move_sound returned taken moved
      rw [at', Except.ok.injEq] at at''
      subst at''
      obtain ⟨rest, rfl⟩ := cons_of_symbolAfterDot? found split (moveSymbol?_eq_some_iff.mp move).1
      refine ⟨id, p, α ++ [x], rest, δ, z, by simpa [Item.advance] using there, found, declared, by simp [split], stands, ?_⟩
      rw [← List.append_assoc, Automaton.follow_append_iff]
      exact ⟨s, path, Automaton.follow_singleton.trans (Automaton.transition_eq_ok_iff.mpr ⟨edge, taken, rfl⟩)⟩

theorem closed_declared (wf : g.WellFormed) (returned : g.automaton = .ok a) :
    g.Closed a {fact | ∀ s i t n, fact = .item s i (.lookahead t) → a.item s i ≠ .ok ⟨.accept, n⟩} := by
  have entered : ∀ {s i p α β n id m}, g.production? id = some p → p.right.toList = α ++ .nonterminal n :: β →
      g.Enters a s i n → a.item s i ≠ .ok ⟨.accept, m⟩ := by
    intro s i p α β n id m found split entry at'
    obtain ⟨q, ω, ⟨id', atI, found', -⟩, left⟩ := entry
    rw [at', Except.ok.injEq, Item.mk.injEq] at atI
    obtain ⟨rfl, -⟩ := atI
    cases found'
    exact wf.ne_start_of_split found split left.symm
  refine ⟨fun l _ s i t n same => (by cases same), fun s k _ fact passes s' i' u m same => ?_⟩
  subst same
  cases passes with
  | first i p α β n t here entry begins =>
      obtain ⟨id, -, found, split⟩ := here
      exact entered found split entry
  | lookahead i p α β n t here entry gone known =>
      obtain ⟨id, -, found, split⟩ := here
      exact entered found split entry
  | move x t j y step inner known =>
      obtain ⟨edge, taken, rfl, moved⟩ := step
      obtain ⟨⟨id, n⟩, at', -, there⟩ := move_sound returned taken moved
      intro other
      rw [there, Except.ok.injEq] at other
      obtain ⟨rfl, -⟩ := Item.mk.inj other
      exact known s k u n rfl at'

theorem table_lookahead_exact (accepted : g.Accepted) (returned : g.automaton = .ok a) :
    ∃ table, a.table g g.context = .ok table ∧
      (∀ id p α β δ t z, g.production? id = some p → p.left ≠ .start → p.right.toList = α ++ β →
        g.DerivesRightmost [.nonterminal .start] (δ ++ .nonterminal p.left :: .terminal t :: ofTerminals z) →
        ∃ s i set, a.follow 0 (δ ++ α) = .ok s ∧ a.item s i = .ok ⟨id, α.length⟩ ∧
          table.lookahead s i = .ok set ∧ t ∈ set) ∧
      ((∀ n, g.Reachable n → g.Productive n) →
        ∀ s i id n set t, a.item s i = .ok ⟨id, n⟩ → table.lookahead s i = .ok set → t ∈ set →
          ∃ p α β δ z, g.production? id = some p ∧ p.left ≠ .start ∧ p.right.toList = α ++ β ∧ α.length = n ∧
            g.DerivesRightmost [.nonterminal .start] (δ ++ .nonterminal p.left :: .terminal t :: ofTerminals z) ∧
            a.follow 0 (δ ++ α) = .ok s) ∧
      ∀ s i n, a.item s i = .ok ⟨.accept, n⟩ → table.lookahead s i = .ok ∅ := by
  have wf := accepted.wellFormed
  obtain ⟨table, ran, exact, -⟩ := table_exact wf returned
  refine ⟨table, ran, fun id p α β δ t z found declared split path => ?_, fun productive s i id n set t at' answer member => ?_,
    fun s i n at' => ?_⟩
  · have stands : g.Stands δ p.left (t :: z) := stands_iff_derivesRightmost.mpr path
    obtain ⟨s, i, path', at', known⟩ := lookahead_complete wf returned isLeast_least.1 found declared split stands
    obtain ⟨set, answer, members⟩ := exact s i _ at'
    exact ⟨s, i, set, path', at', answer, (members t).mpr known⟩
  · obtain ⟨set', answer', members⟩ := exact s i _ at'
    rw [answer, Except.ok.injEq] at answer'
    subst answer'
    have known := isLeast_least.2 (closed_expects wf returned productive) ((members t).mp member)
    obtain ⟨id', p, α, β, δ, z, at'', found, declared, split, stands, path⟩ := known s i t rfl
    rw [at', Except.ok.injEq, Item.mk.injEq] at at''
    obtain ⟨rfl, rfl⟩ := at''
    exact ⟨p, α, β, δ, z, found, declared, split, rfl, stands.derivesRightmost, path⟩
  · obtain ⟨set, answer, members⟩ := exact s i _ at'
    rw [answer, Except.ok.injEq]
    refine BitSet.ext fun t => iff_of_false (fun member => ?_) (BitSet.not_mem_empty t)
    exact isLeast_least.2 (closed_declared wf returned) ((members t).mp member) s i t n rfl at'

theorem productive_of_production (id : ProductionId) (p : Production) (found : g.production? id = some p)
    (all : ∀ n, .nonterminal n ∈ p.right → g.Productive n) : g.Productive p.left := by
  obtain ⟨w, yields⟩ := yields_of_productive fun n member => all n (Array.mem_toList_iff.mp member)
  exact ⟨w, (derives_production found).trans yields.derives⟩

theorem productive_of_rule (i : Nat) (bound : i < g.rules.size)
    (all : ∀ n, .nonterminal n ∈ g.rules[i].right → g.Productive n) : g.Productive g.rules[i].left :=
  productive_of_production (.rule i) g.rules[i] (Array.getElem?_eq_getElem bound) all

theorem composed_productive (n : Nonterminal) (reachable : composed.Reachable n) : composed.Productive n := by
  have columns : composed.Productive ⟨5⟩ := productive_of_rule 7 (by decide) (by simp [composed, Example.t])
  have query : composed.Productive ⟨4⟩ := productive_of_rule 5 (by decide)
    (by simpa [composed, Example.t, Example.n] using columns)
  have expr : composed.Productive ⟨3⟩ := productive_of_rule 3 (by decide) (by simp [composed, Example.t])
  have stmt : composed.Productive ⟨2⟩ := productive_of_rule 2 (by decide) (by simpa [composed, Example.t, Example.n] using expr)
  have stmts : composed.Productive ⟨1⟩ := productive_of_rule 1 (by decide) (by simp [composed])
  have whole : composed.Productive ⟨0⟩ := productive_of_production .accept composed.accept rfl
    (by simpa [mem_accept_right, composed] using stmts)
  have known : n.index < 6 := reachable.knows composed_accepted.wellFormed
  obtain ⟨i⟩ := n
  interval_cases i
  · exact whole
  · exact stmts
  · exact stmt
  · exact expr
  · exact query
  · exact columns

theorem table_lookahead_exact_composed : composed.Accepted ∧ (∀ n, composed.Reachable n → composed.Productive n) ∧
    ∃ a table s i set, composed.automaton = .ok a ∧ a.table composed composed.context = .ok table ∧
      a.follow 0 [Example.n 1, Example.t 1, Example.t 2, Example.t 3, Example.t 5, Example.n 5] = .ok s ∧
      a.item s i = .ok ⟨.rule 5, 2⟩ ∧ table.lookahead s i = .ok set ∧ ⟨4⟩ ∈ set ∧
      ∀ t ∈ set, ∃ δ z, composed.DerivesRightmost [.nonterminal .start] (δ ++ Example.n 4 :: .terminal t :: ofTerminals z) := by
  obtain ⟨a, returned⟩ : ∃ a, composed.automaton = .ok a := exists_of_isOk (by decide +kernel)
  obtain ⟨table, ran, complete, sound, -⟩ := table_lookahead_exact composed_accepted returned
  have program : composed.Stands [] ⟨1⟩ [⟨0⟩] := .child [] [] _ ⟨1⟩ [⟨0⟩] [] .accept _ .start rfl rfl (.terminal ⟨0⟩ [] [] .nil)
  have statement : composed.Stands [Example.n 1] ⟨2⟩ [⟨0⟩] := .child [] [Example.n 1] [] ⟨2⟩ [] _ (.rule 0) _ program rfl rfl .nil
  have value : composed.Stands [Example.n 1, Example.t 1, Example.t 2, Example.t 3] ⟨3⟩ [⟨4⟩, ⟨0⟩] :=
    .child [Example.n 1] [Example.t 1, Example.t 2, Example.t 3] _ ⟨3⟩ [⟨4⟩] _ (.rule 2) _ statement rfl rfl
      (.terminal ⟨4⟩ [] [] .nil)
  have query : composed.Stands [Example.n 1, Example.t 1, Example.t 2, Example.t 3] ⟨4⟩ [⟨4⟩, ⟨0⟩] :=
    .child [Example.n 1, Example.t 1, Example.t 2, Example.t 3] [] [] ⟨4⟩ [] _ (.rule 4) _ value rfl rfl .nil
  obtain ⟨s, i, set, path, at', answer, member⟩ :=
    complete (.rule 5) ⟨⟨4⟩, #[Example.t 5, Example.n 5], {⟨1⟩}⟩ [Example.t 5, Example.n 5] [] _ ⟨4⟩ [⟨0⟩] rfl (by decide) rfl
      query.derivesRightmost
  refine ⟨composed_accepted, composed_productive, a, table, s, i, set, returned, ran, path, at', answer, member,
    fun t among => ?_⟩
  obtain ⟨p, α, β, δ, z, found, -, -, -, derivation, -⟩ := sound composed_productive s i _ _ set t at' answer among
  cases found
  exact ⟨δ, z, derivation⟩

end Grammar

end Lookahead
