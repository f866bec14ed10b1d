import Lookahead.Grammar.Basic
import Mathlib.Logic.Relation
import Mathlib.Data.List.Basic

set_option autoImplicit false

namespace Lookahead

def Symbol.ofTerminals (z : List Terminal) : List Symbol := z.map .terminal

namespace Symbol

@[simp] theorem ofTerminals_nil : ofTerminals [] = [] := rfl

@[simp] theorem ofTerminals_cons (t : Terminal) (z : List Terminal) :
    ofTerminals (t :: z) = .terminal t :: ofTerminals z := rfl

@[simp] theorem ofTerminals_append (w z : List Terminal) :
    ofTerminals (w ++ z) = ofTerminals w ++ ofTerminals z := List.map_append

theorem ofTerminals_injective : Function.Injective ofTerminals :=
  List.map_injective_iff.mpr fun _ _ same => Symbol.terminal.inj same

theorem nonterminal_not_mem_ofTerminals (n : Nonterminal) (z : List Terminal) :
    .nonterminal n ∉ ofTerminals z := by
  simp [ofTerminals]

theorem cons_nonterminal_ne_ofTerminals (n : Nonterminal) (τ : List Symbol) (z : List Terminal) :
    .nonterminal n :: τ ≠ ofTerminals z := by
  cases z <;> simp

theorem cut_behind (mid front : List Symbol) (n : Nonterminal) (z y : List Terminal)
    (same : mid ++ .nonterminal n :: ofTerminals z = front ++ ofTerminals y) :
    ∃ u, front = mid ++ .nonterminal n :: ofTerminals u ∧ z = u ++ y := by
  rcases List.append_eq_append_iff.mp same with ⟨c, rfl, rest⟩ | ⟨c, rfl, rest⟩
  · cases c with
    | nil => exact absurd rest (cons_nonterminal_ne_ofTerminals n _ y)
    | cons x c =>
        obtain ⟨rfl, behind⟩ := List.cons.inj rest
        obtain ⟨u, v, rfl, rfl, last⟩ := List.map_eq_append_iff.mp behind
        exact ⟨u, rfl, by rw [ofTerminals_injective last]⟩
  · exact absurd (rest ▸ by simp) (nonterminal_not_mem_ofTerminals n y)

-- A nonterminal in front of which something has been put together with terminals at the end stands
-- in one part or the other.
theorem cut_around (front right δ τ : List Symbol) (n : Nonterminal) (z : List Terminal)
    (same : front ++ (right ++ ofTerminals z) = δ ++ .nonterminal n :: τ) :
    (∃ mid, front = δ ++ .nonterminal n :: mid ∧ τ = mid ++ (right ++ ofTerminals z)) ∨
      ∃ α β, right = α ++ .nonterminal n :: β ∧ δ = front ++ α ∧ τ = β ++ ofTerminals z := by
  have inRight : ∀ c, right ++ ofTerminals z = c ++ .nonterminal n :: τ →
      ∃ β, right = c ++ .nonterminal n :: β ∧ τ = β ++ ofTerminals z := by
    intro c rest
    rcases List.append_eq_append_iff.mp rest with ⟨d, rfl, inside⟩ | ⟨d, split, last⟩
    · exact absurd (inside ▸ by simp) (nonterminal_not_mem_ofTerminals n z)
    · cases d with
      | nil => exact absurd last (cons_nonterminal_ne_ofTerminals n _ z)
      | cons x d =>
          obtain ⟨rfl, behind⟩ := List.cons.inj last
          exact ⟨d, split, behind⟩
  rcases List.append_eq_append_iff.mp same with ⟨c, rfl, rest⟩ | ⟨c, rfl, rest⟩
  · obtain ⟨β, split, behind⟩ := inRight c rest
    exact .inr ⟨c, β, split, rfl, behind⟩
  · cases c with
    | nil =>
        obtain ⟨β, split, behind⟩ := inRight [] rest.symm
        exact .inr ⟨[], β, split, by simp, behind⟩
    | cons x c =>
        obtain ⟨rfl, behind⟩ := List.cons.inj rest
        exact .inl ⟨c, rfl, behind⟩

end Symbol

open Lookahead.Symbol (ofTerminals)

namespace Grammar

inductive Rewrites (g : Grammar) : List Symbol → List Symbol → Prop where
  | apply (front back : List Symbol) (id : ProductionId) (p : Production) (found : g.production? id = some p) :
      Rewrites g (front ++ .nonterminal p.left :: back) (front ++ (p.right.toList ++ back))

-- The nonterminal that is replaced is the last one.
inductive RewritesLast (g : Grammar) : List Symbol → List Symbol → Prop where
  | apply (front : List Symbol) (z : List Terminal) (id : ProductionId) (p : Production)
      (found : g.production? id = some p) :
      RewritesLast g (front ++ .nonterminal p.left :: ofTerminals z) (front ++ (p.right.toList ++ ofTerminals z))

def Derives (g : Grammar) : List Symbol → List Symbol → Prop := Relation.ReflTransGen g.Rewrites

def DerivesRightmost (g : Grammar) : List Symbol → List Symbol → Prop := Relation.ReflTransGen g.RewritesLast

def Begins (g : Grammar) (β : List Symbol) (t : Terminal) : Prop := ∃ ζ, g.Derives β (.terminal t :: ζ)

def Vanishes (g : Grammar) (β : List Symbol) : Prop := g.Derives β []

inductive Yields (g : Grammar) : List Symbol → List Terminal → Prop where
  | nil : Yields g [] []
  | terminal (t : Terminal) (β : List Symbol) (w : List Terminal) (rest : Yields g β w) :
      Yields g (.terminal t :: β) (t :: w)
  | nonterminal (id : ProductionId) (p : Production) (β : List Symbol) (v w : List Terminal)
      (found : g.production? id = some p) (inner : Yields g p.right.toList v) (rest : Yields g β w) :
      Yields g (.nonterminal p.left :: β) (v ++ w)

def Productive (g : Grammar) (n : Nonterminal) : Prop := ∃ z, g.Derives [.nonterminal n] (ofTerminals z)

def Reachable (g : Grammar) (n : Nonterminal) : Prop :=
  ∃ front back, g.Derives [.nonterminal g.startSymbol] (front ++ .nonterminal n :: back)

-- What derivations come to, the augmented start included.
def InUse (g : Grammar) (n : Nonterminal) : Prop := n = .start ∨ g.Reachable n

-- The right sentential forms `δ A z`, by the productions that lead down to `A`.
inductive Stands (g : Grammar) : List Symbol → Nonterminal → List Terminal → Prop where
  | start : Stands g [] .start []
  | child (δ α β : List Symbol) (n : Nonterminal) (w z : List Terminal) (id : ProductionId) (p : Production)
      (parent : Stands g δ p.left z) (found : g.production? id = some p)
      (split : p.right.toList = α ++ .nonterminal n :: β) (tail : Yields g β w) :
      Stands g (δ ++ α) n (w ++ z)

variable {g : Grammar}

theorem Rewrites.in_context {β γ : List Symbol} (step : g.Rewrites β γ) (front back : List Symbol) :
    g.Rewrites (front ++ (β ++ back)) (front ++ (γ ++ back)) := by
  cases step with
  | apply before after id p found =>
      simpa [List.append_assoc] using Rewrites.apply (front ++ before) (after ++ back) id p found

theorem Derives.in_context {β γ : List Symbol} (path : g.Derives β γ) (front back : List Symbol) :
    g.Derives (front ++ (β ++ back)) (front ++ (γ ++ back)) := by
  induction path with
  | refl => exact .refl
  | tail _ step ih => exact ih.tail (step.in_context front back)

theorem Derives.append {α β γ δ : List Symbol} (left : g.Derives α γ) (right : g.Derives β δ) :
    g.Derives (α ++ β) (γ ++ δ) := by
  have first : g.Derives (α ++ β) (γ ++ β) := by simpa using left.in_context [] β
  have second : g.Derives (γ ++ β) (γ ++ δ) := by simpa using right.in_context γ []
  exact Relation.ReflTransGen.trans first second

theorem derives_production {id : ProductionId} {p : Production} (found : g.production? id = some p) :
    g.Derives [.nonterminal p.left] p.right.toList :=
  Relation.ReflTransGen.single (by simpa using Rewrites.apply (g := g) [] [] id p found)

theorem Yields.derives {β : List Symbol} {w : List Terminal} (yields : g.Yields β w) :
    g.Derives β (ofTerminals w) := by
  induction yields with
  | nil => exact .refl
  | terminal t β w _ ih => simpa using Derives.append (g := g) (α := [.terminal t]) .refl ih
  | nonterminal id p β v w found _ _ inner rest =>
      rw [Symbol.ofTerminals_append]
      exact Derives.append (α := [.nonterminal p.left]) ((derives_production found).trans inner) rest

theorem Yields.begins {β : List Symbol} {t : Terminal} {w : List Terminal} (yields : g.Yields β (t :: w)) :
    g.Begins β t :=
  ⟨ofTerminals w, yields.derives⟩

theorem yields_ofTerminals (z : List Terminal) : g.Yields (ofTerminals z) z := by
  induction z with
  | nil => exact .nil
  | cons t z ih => exact .terminal t _ z ih

theorem Yields.append {α β : List Symbol} {v w : List Terminal} (left : g.Yields α v) (right : g.Yields β w) :
    g.Yields (α ++ β) (v ++ w) := by
  induction left with
  | nil => exact right
  | terminal t α v _ ih => exact .terminal t (α ++ β) (v ++ w) ih
  | nonterminal id p α u v found inner _ _ ih =>
      rw [List.append_assoc]
      exact .nonterminal id p (α ++ β) u (v ++ w) found inner ih

theorem Yields.split {α β : List Symbol} {z : List Terminal} (yields : g.Yields (α ++ β) z) :
    ∃ v w, z = v ++ w ∧ g.Yields α v ∧ g.Yields β w := by
  induction α generalizing z with
  | nil => exact ⟨[], z, rfl, .nil, yields⟩
  | cons x α ih =>
      cases yields with
      | terminal t _ z rest =>
          obtain ⟨v, w, rfl, left, right⟩ := ih rest
          exact ⟨t :: v, w, rfl, .terminal t α v left, right⟩
      | nonterminal id p _ u z found inner rest =>
          obtain ⟨v, w, rfl, left, right⟩ := ih rest
          exact ⟨u ++ v, w, by simp, .nonterminal id p α u v found inner left, right⟩

theorem yields_of_derives {β : List Symbol} {z : List Terminal} (path : g.Derives β (ofTerminals z)) :
    g.Yields β z := by
  induction path using Relation.ReflTransGen.head_induction_on with
  | refl => exact yields_ofTerminals z
  | head step _ ih =>
      cases step with
      | apply front back id p found =>
          obtain ⟨u, _, rfl, left, others⟩ := ih.split
          obtain ⟨v, w, rfl, inner, right⟩ := others.split
          exact left.append (.nonterminal id p back v w found inner right)

theorem Yields.derivesRightmost {β : List Symbol} {w : List Terminal} (yields : g.Yields β w)
    (front : List Symbol) (z : List Terminal) :
    g.DerivesRightmost (front ++ (β ++ ofTerminals z)) (front ++ ofTerminals (w ++ z)) := by
  induction yields generalizing front z with
  | nil => exact .refl
  | terminal t β w _ ih =>
      have behind := ih (front ++ [.terminal t]) z
      rw [List.append_assoc, List.append_assoc] at behind
      exact behind
  | nonterminal id p β v w found _ _ inner rest =>
      -- The symbols behind are replaced first, and then this one.
      have behind : g.DerivesRightmost (front ++ (.nonterminal p.left :: β ++ ofTerminals z))
          (front ++ .nonterminal p.left :: ofTerminals (w ++ z)) := by
        have after := rest (front ++ [.nonterminal p.left]) z
        rw [List.append_assoc, List.append_assoc] at after
        exact after
      have here : g.DerivesRightmost (front ++ .nonterminal p.left :: ofTerminals (w ++ z))
          (front ++ (p.right.toList ++ ofTerminals (w ++ z))) :=
        Relation.ReflTransGen.single (.apply front (w ++ z) id p found)
      rw [List.append_assoc]
      exact (behind.trans here).trans (inner front (w ++ z))

theorem Stands.derivesRightmost {δ : List Symbol} {n : Nonterminal} {z : List Terminal} (stands : g.Stands δ n z) :
    g.DerivesRightmost [.nonterminal .start] (δ ++ .nonterminal n :: ofTerminals z) := by
  induction stands with
  | start => exact .refl
  | child δ α β n w z id p _ found split tail ih =>
      have step := ih.tail (RewritesLast.apply δ z id p found)
      have rest := tail.derivesRightmost (δ ++ α ++ [.nonterminal n]) z
      rw [split] at step
      simp only [List.append_assoc, List.cons_append] at step rest ⊢
      exact step.trans rest

-- Where a nonterminal of a right sentential form has come from: it is the start, or it stems from a
-- right side whose symbols behind it have become what is behind it now.
inductive Origin (g : Grammar) : List Symbol → Nonterminal → List Symbol → Prop where
  | start : Origin g [] .start []
  | child (δ α β w : List Symbol) (n : Nonterminal) (z : List Terminal) (id : ProductionId) (p : Production)
      (parent : g.Stands δ p.left z) (found : g.production? id = some p)
      (split : p.right.toList = α ++ .nonterminal n :: β) (tail : g.Derives β w) :
      Origin g (δ ++ α) n (w ++ ofTerminals z)

theorem Origin.stands {δ : List Symbol} {n : Nonterminal} {z : List Terminal}
    (origin : g.Origin δ n (ofTerminals z)) : g.Stands δ n z := by
  generalize same : ofTerminals z = τ at origin
  cases origin with
  | start =>
      have none : z = [] := Symbol.ofTerminals_injective same
      subst none
      exact .start
  | child δ α β w n y id p parent found split tail =>
      obtain ⟨u, v, rfl, rfl, last⟩ := List.map_eq_append_iff.mp same
      have rest : v = y := Symbol.ofTerminals_injective last
      subst rest
      exact .child δ α β n u v id p parent found split (yields_of_derives tail)

theorem Origin.replace_behind {δ mid : List Symbol} {n : Nonterminal} {z : List Terminal} {id : ProductionId}
    {p : Production} (found : g.production? id = some p)
    (origin : g.Origin δ n (mid ++ .nonterminal p.left :: ofTerminals z)) :
    g.Origin δ n (mid ++ (p.right.toList ++ ofTerminals z)) := by
  generalize same : mid ++ .nonterminal p.left :: ofTerminals z = τ at origin
  cases origin with
  | start => simp at same
  | child δ α β w n y id' q parent found' split tail =>
      obtain ⟨u, rfl, rfl⟩ := Symbol.cut_behind mid w p.left z y same
      have longer := tail.tail (Rewrites.apply mid (ofTerminals u) id p found)
      simpa using Origin.child δ α β _ n y id' q parent found' split longer

theorem origin_of_derivesRightmost {σ : List Symbol} (path : g.DerivesRightmost [.nonterminal .start] σ)
    (δ τ : List Symbol) (n : Nonterminal) (same : σ = δ ++ .nonterminal n :: τ) : g.Origin δ n τ := by
  induction path generalizing δ τ n with
  | refl =>
      cases δ with
      | nil =>
          obtain ⟨name, rfl⟩ := List.cons.inj same
          cases name
          exact .start
      | cons x δ => simp at same
  | tail _ step ih =>
      cases step with
      | apply front z id p found =>
          rcases Symbol.cut_around front p.right.toList δ τ n z same with ⟨mid, rfl, rfl⟩ | ⟨α, β, split, rfl, rfl⟩
          · exact (ih δ (mid ++ .nonterminal p.left :: ofTerminals z) n (by simp)).replace_behind found
          · exact .child front α β β n z id p (ih front (ofTerminals z) p.left rfl).stands found split .refl

theorem stands_iff_derivesRightmost {δ : List Symbol} {n : Nonterminal} {z : List Terminal} :
    g.Stands δ n z ↔ g.DerivesRightmost [.nonterminal .start] (δ ++ .nonterminal n :: ofTerminals z) :=
  ⟨Stands.derivesRightmost, fun path => (origin_of_derivesRightmost path δ (ofTerminals z) n rfl).stands⟩

end Grammar

end Lookahead
