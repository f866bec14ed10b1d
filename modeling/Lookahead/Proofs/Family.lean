import Lookahead.Automaton.Basic
import Lookahead.Proofs.Derivation
import Lookahead.Proofs.WellFormed
import Mathlib.Order.Bounds.Basic
import Mathlib.Data.Set.Finite.Lattice
import Mathlib.Data.Set.Finite.Powerset
import Mathlib.Order.Preorder.Finite

set_option autoImplicit false

namespace Lookahead

inductive Trait where
  | lookahead (t : Terminal)
  | opening (l : Layout)
  | closing (l : Layout)

-- One element of a family. Items are known by their state and their index in it.
inductive Fact where
  | item (s i : Nat) (x : Trait)
  | state (s : Nat) (l : Layout)

def Automaton.Goes (a : Automaton) (s k : Nat) (x : Symbol) (t j : Nat) : Prop :=
  ∃ edge, a.edge s x = .ok edge ∧ edge.target = t ∧ (k, j) ∈ edge.moves

namespace Grammar

-- Item `k` of state `s` is a production with the dot between `α` and `β`.
def Dotted (g : Grammar) (a : Automaton) (s k : Nat) (p : Production) (α β : List Symbol) : Prop :=
  ∃ id, a.item s k = .ok ⟨id, α.length⟩ ∧ g.production? id = some p ∧ p.right.toList = α ++ β

def Enters (g : Grammar) (a : Automaton) (s i : Nat) (n : Nonterminal) : Prop :=
  ∃ p ω, g.Dotted a s i p [] ω ∧ p.left = n

-- What item `k` of state `s` passes on, to the entries of the symbol behind its dot, to the item that
-- it becomes, and to the layout of the two states.
inductive Passes (g : Grammar) (a : Automaton) (F : Set Fact) (s k : Nat) : Fact → Prop where
  | first (i : Nat) (p : Production) (α β : List Symbol) (n : Nonterminal) (t : Terminal)
      (here : g.Dotted a s k p α (.nonterminal n :: β)) (entry : g.Enters a s i n) (begins : g.Begins β t) :
      Passes g a F s k (.item s i (.lookahead t))
  | lookahead (i : Nat) (p : Production) (α β : List Symbol) (n : Nonterminal) (t : Terminal)
      (here : g.Dotted a s k p α (.nonterminal n :: β)) (entry : g.Enters a s i n) (gone : g.Vanishes β)
      (known : .item s k (.lookahead t) ∈ F) : Passes g a F s k (.item s i (.lookahead t))
  | opening (i : Nat) (p : Production) (β : List Symbol) (n : Nonterminal) (l : Layout)
      (here : g.Dotted a s k p [] (.nonterminal n :: β)) (entry : g.Enters a s i n)
      (known : .item s k (.opening l) ∈ F) : Passes g a F s k (.item s i (.opening l))
  | between (i : Nat) (p : Production) (α β : List Symbol) (n : Nonterminal) (l : Layout)
      (here : g.Dotted a s k p α (.nonterminal n :: β)) (entry : g.Enters a s i n) (inside : α ≠ [])
      (admitted : l ∈ p.layout) : Passes g a F s k (.item s i (.opening l))
  | gap (i : Nat) (p : Production) (α β : List Symbol) (n : Nonterminal) (l : Layout)
      (here : g.Dotted a s k p α (.nonterminal n :: β)) (entry : g.Enters a s i n)
      (around : α ≠ [] ∨ ∃ t, g.Begins β t) (admitted : l ∈ p.layout) :
      Passes g a F s k (.item s i (.closing l))
  | closing (i : Nat) (p : Production) (α β : List Symbol) (n : Nonterminal) (l : Layout)
      (here : g.Dotted a s k p α (.nonterminal n :: β)) (entry : g.Enters a s i n) (gone : g.Vanishes β)
      (known : .item s k (.closing l) ∈ F) : Passes g a F s k (.item s i (.closing l))
  | move (x : Symbol) (t j : Nat) (y : Trait) (step : a.Goes s k x t j) (inner : x ≠ .terminal .endOfInput)
      (known : .item s k y ∈ F) : Passes g a F s k (.item t j y)
  | arrive (x : Symbol) (t j : Nat) (p : Production) (α β : List Symbol) (l : Layout) (step : a.Goes s k x t j)
      (inner : x ≠ .terminal .endOfInput) (there : g.Dotted a t j p α β) (more : β ≠ [])
      (admitted : l ∈ p.layout) : Passes g a F s k (.state t l)
  | before (p : Production) (β : List Symbol) (l : Layout) (here : g.Dotted a s k p [] β)
      (known : .item s k (.opening l) ∈ F) : Passes g a F s k (.state s l)
  | behind (p : Production) (α β : List Symbol) (l : Layout) (here : g.Dotted a s k p α β)
      (gone : g.Vanishes β) (known : .item s k (.closing l) ∈ F) : Passes g a F s k (.state s l)

def Active (F : Set Fact) (s k : Nat) : Prop := (s = 0 ∧ k = 0) ∨ ∃ x, .item s k x ∈ F

structure Closed (g : Grammar) (a : Automaton) (F : Set Fact) : Prop where
  start : ∀ l ∈ g.startLayout, .item 0 0 (.opening l) ∈ F
  passed : ∀ s k, Active F s k → ∀ fact, g.Passes a F s k fact → fact ∈ F

def least (g : Grammar) (a : Automaton) : Set Fact := Set.sInter {F | g.Closed a F}

-- One visit to an active item, which passes on some of what there is to pass on.
def Visits (g : Grammar) (a : Automaton) (F G : Set Fact) : Prop :=
  ∃ s k, Active F s k ∧ F ⊆ G ∧ ∀ fact ∈ G, fact ∈ F ∨ g.Passes a F s k fact

def seeds (g : Grammar) : Set Fact := {fact | ∃ l ∈ g.startLayout, fact = .item 0 0 (.opening l)}

def Gathers (g : Grammar) (a : Automaton) : Set Fact → Prop := Relation.ReflTransGen (g.Visits a) g.seeds

variable {g : Grammar} {a : Automaton}

theorem Passes.mono {F G : Set Fact} {s k : Nat} {fact : Fact} (passes : g.Passes a F s k fact)
    (more : ∀ x, .item s k x ∈ F → .item s k x ∈ G) : g.Passes a G s k fact := by
  cases passes with
  | first i p α β n t here entry begins => exact .first i p α β n t here entry begins
  | lookahead i p α β n t here entry gone known => exact .lookahead i p α β n t here entry gone (more _ known)
  | opening i p β n l here entry known => exact .opening i p β n l here entry (more _ known)
  | between i p α β n l here entry inside admitted => exact .between i p α β n l here entry inside admitted
  | gap i p α β n l here entry around admitted => exact .gap i p α β n l here entry around admitted
  | closing i p α β n l here entry gone known => exact .closing i p α β n l here entry gone (more _ known)
  | move x t j y step inner known => exact .move x t j y step inner (more y known)
  | arrive x t j p α β l step inner there rest admitted => exact .arrive x t j p α β l step inner there rest admitted
  | before p β l here known => exact .before p β l here (more _ known)
  | behind p α β l here gone known => exact .behind p α β l here gone (more _ known)

theorem Active.mono {F G : Set Fact} {s k : Nat} (active : Active F s k) (more : F ⊆ G) : Active G s k := by
  rcases active with start | ⟨x, known⟩
  · exact .inl start
  · exact .inr ⟨x, more known⟩

theorem isLeast_least : IsLeast {F | g.Closed a F} (g.least a) := by
  refine ⟨⟨fun l member F closed => closed.start l member, fun s k active fact passes F closed => ?_⟩,
    fun F closed => Set.sInter_subset_of_mem closed⟩
  have below : g.least a ⊆ F := Set.sInter_subset_of_mem closed
  exact closed.passed s k (active.mono below) fact (passes.mono fun x known => below known)

theorem Gathers.subset {F G : Set Fact} (gathers : g.Gathers a F) (closed : g.Closed a G) : F ⊆ G := by
  induction gathers with
  | refl =>
      rintro fact ⟨l, member, rfl⟩
      exact closed.start l member
  | tail _ visit ih =>
      obtain ⟨s, k, active, -, passed⟩ := visit
      intro fact member
      rcases passed fact member with old | new
      · exact ih old
      · exact closed.passed s k (active.mono ih) fact (new.mono fun x known => ih known)

theorem Gathers.start {F : Set Fact} (gathers : g.Gathers a F) : ∀ l ∈ g.startLayout, .item 0 0 (.opening l) ∈ F := by
  induction gathers with
  | refl => exact fun l member => ⟨l, member, rfl⟩
  | tail _ visit ih =>
      obtain ⟨s, k, -, more, -⟩ := visit
      exact fun l member => more (ih l member)

theorem Gathers.eq_least {F : Set Fact} (gathers : g.Gathers a F)
    (rest : ∀ s k, Active F s k → ∀ fact, g.Passes a F s k fact → fact ∈ F) : F = g.least a :=
  Set.Subset.antisymm (gathers.subset isLeast_least.1) (isLeast_least.2 ⟨gathers.start, rest⟩)

theorem Gathers.visits_least {F : Set Fact} (gathers : g.Gathers a F) (finite : (g.least a).Finite) :
    Relation.ReflTransGen (g.Visits a) F (g.least a) := by
  have bounded : {G | Relation.ReflTransGen (g.Visits a) F G}.Finite :=
    finite.finite_subsets.subset fun G path => Gathers.subset (gathers.trans path) isLeast_least.1
  obtain ⟨G, path, largest⟩ := bounded.exists_maximal ⟨F, .refl⟩
  have reached : g.Gathers a G := gathers.trans path
  rw [← reached.eq_least fun s k active fact passes => ?_]
  · exact path
  · have visit : g.Visits a G (G ∪ {fact}) := by
      refine ⟨s, k, active, Set.subset_union_left, fun other member => ?_⟩
      rcases member with old | rfl
      · exact .inl old
      · exact .inr passes
    exact largest (path.tail visit) Set.subset_union_left (.inr rfl)

def traits (g : Grammar) : List Trait :=
  (List.range g.terminals.size).map (fun i => .lookahead ⟨i⟩) ++
    ((List.range g.layouts.size).map (fun i => .opening ⟨i⟩) ++ (List.range g.layouts.size).map fun i => .closing ⟨i⟩)

theorem length_traits : g.traits.length = g.terminals.size + 2 * g.layouts.size := by
  simp [traits]
  omega

theorem lookahead_mem_traits {t : Terminal} : .lookahead t ∈ g.traits ↔ t.index < g.terminals.size := by
  obtain ⟨i⟩ := t
  simp [traits]

theorem opening_mem_traits {l : Layout} : .opening l ∈ g.traits ↔ l.index < g.layouts.size := by
  obtain ⟨i⟩ := l
  simp [traits]

theorem closing_mem_traits {l : Layout} : .closing l ∈ g.traits ↔ l.index < g.layouts.size := by
  obtain ⟨i⟩ := l
  simp [traits]

theorem WellFormed.knows_of_derives (wf : g.WellFormed) {β γ : List Symbol} (path : g.Derives β γ)
    (known : ∀ x ∈ β, g.Knows x) : ∀ x ∈ γ, g.Knows x := by
  induction path with
  | refl => exact known
  | tail _ step ih =>
      cases step with
      | apply front back id p found =>
          intro x member
          rcases List.mem_append.mp member with before | rest
          · exact ih x (by simp [before])
          · rcases List.mem_append.mp rest with inside | behind
            · exact wf.knows_right found (Array.mem_toList_iff.mp inside)
            · exact ih x (by simp [behind])

theorem Dotted.mem_right {s k : Nat} {p : Production} {α β : List Symbol} (here : g.Dotted a s k p α β) :
    ∃ id, g.production? id = some p ∧ (∀ x ∈ α, x ∈ p.right) ∧ ∀ x ∈ β, x ∈ p.right := by
  obtain ⟨id, -, found, split⟩ := here
  refine ⟨id, found, fun x member => Array.mem_toList_iff.mp ?_, fun x member => Array.mem_toList_iff.mp ?_⟩
  · simp [split, member]
  · simp [split, member]

theorem Dotted.knows_layout (wf : g.WellFormed) {s k : Nat} {p : Production} {α β : List Symbol}
    (here : g.Dotted a s k p α β) {l : Layout} (admitted : l ∈ p.layout) : l.index < g.layouts.size := by
  obtain ⟨id, found, -⟩ := here.mem_right
  exact wf.knows_layout found admitted

theorem WellFormed.mem_traits_of_least (wf : g.WellFormed) {s i : Nat} {x : Trait} (member : .item s i x ∈ g.least a) :
    x ∈ g.traits := by
  let known : Set Fact := {fact | ∀ s i x, fact = .item s i x → x ∈ g.traits}
  have closed : g.Closed a known := by
    refine ⟨fun l among s i x same => ?_, fun s k _ fact passes s' i' x same => ?_⟩
    · cases same
      exact opening_mem_traits.mpr (wf.startLayout l among)
    · subst same
      cases passes with
      | first i p α β n t here entry begins =>
          obtain ⟨id, found, -, behind⟩ := here.mem_right
          obtain ⟨ζ, path⟩ := begins
          have all := wf.knows_of_derives path fun y among => wf.knows_right found (behind y (List.mem_cons_of_mem _ among))
          exact lookahead_mem_traits.mpr (all (.terminal t) List.mem_cons_self)
      | lookahead i p α β n t here entry gone known => exact known _ _ _ rfl
      | opening i p β n l here entry known => exact known _ _ _ rfl
      | between i p α β n l here entry inside admitted => exact opening_mem_traits.mpr (here.knows_layout wf admitted)
      | gap i p α β n l here entry around admitted => exact closing_mem_traits.mpr (here.knows_layout wf admitted)
      | closing i p α β n l here entry gone known => exact known _ _ _ rfl
      | move y t j _ step inner known => exact known _ _ _ rfl
  exact isLeast_least.2 closed member s i x rfl

theorem WellFormed.knows_layout_of_least (wf : g.WellFormed) {s : Nat} {l : Layout} (member : .state s l ∈ g.least a) :
    l.index < g.layouts.size := by
  have closed : g.Closed a (g.least a) := isLeast_least.1
  have known : g.Closed a {fact ∈ g.least a | ∀ s l, fact = .state s l → l.index < g.layouts.size} := by
    refine ⟨fun l among => ⟨closed.start l among, fun s l same => (by cases same)⟩, fun s k active fact passes => ⟨?_, ?_⟩⟩
    · exact closed.passed s k (active.mono fun _ => And.left) fact (passes.mono fun _ => And.left)
    · rintro s' l rfl
      cases passes with
      | arrive x t j p α β _ step inner there more admitted => exact there.knows_layout wf admitted
      | before p β _ here held => exact opening_mem_traits.mp (wf.mem_traits_of_least held.1)
      | behind p α β _ here gone held => exact closing_mem_traits.mp (wf.mem_traits_of_least held.1)
  exact (isLeast_least.2 known member).2 s l rfl

end Grammar

end Lookahead
