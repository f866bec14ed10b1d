import Std.Data.TreeMap.Lemmas

set_option autoImplicit false

namespace Lookahead

structure Terminal where
  index : Nat
deriving DecidableEq, Repr

structure Layout where
  index : Nat
deriving DecidableEq, Repr

structure Nonterminal where
  index : Nat
deriving DecidableEq, Repr

inductive Symbol where
  | terminal (t : Terminal)
  | nonterminal (n : Nonterminal)
deriving DecidableEq, Repr

inductive ProductionId where
  | rule (index : Nat)
  | accept
deriving DecidableEq, Repr

def Terminal.endOfInput : Terminal := ⟨0⟩

def Nonterminal.start : Nonterminal := ⟨0⟩

def padded (n : Nat) : String :=
  let digits := toString n
  String.ofList (List.replicate (3 - digits.length) '0') ++ digits

def Terminal.label (t : Terminal) : String :=
  if t = .endOfInput then "T#End" else "T#" ++ padded t.index

def Layout.label (l : Layout) : String := "L#" ++ padded l.index

def Nonterminal.label (n : Nonterminal) : String :=
  if n = .start then "N#Start" else "N#" ++ padded n.index

def Symbol.label : Symbol → String
  | .terminal t => t.label
  | .nonterminal n => n.label

def ProductionId.label : ProductionId → String
  | .rule i => "P#" ++ padded i
  | .accept => "P#Accept"

def stateLabel (state : Nat) : String := "S#" ++ padded state

def ProductionId.kind : ProductionId → Nat
  | .rule _ => 0
  | .accept => 1

def ProductionId.number : ProductionId → Nat
  | .rule i => i
  | .accept => 0

instance : Ord ProductionId := ⟨compareLex (compareOn ProductionId.kind) (compareOn ProductionId.number)⟩

instance : Std.TransOrd ProductionId :=
  inferInstanceAs (Std.TransCmp (compareLex (compareOn ProductionId.kind) (compareOn ProductionId.number)))

theorem ProductionId.ext_of_number {a b : ProductionId} (kinds : a.kind = b.kind)
    (numbers : a.number = b.number) : a = b := by
  cases a <;> cases b <;> simp_all [kind, number]

instance : Std.LawfulEqOrd ProductionId where
  eq_of_compare h := by
    obtain ⟨kinds, numbers⟩ := Ordering.then_eq_eq.mp h
    exact ProductionId.ext_of_number (Std.LawfulEqOrd.eq_of_compare kinds)
      (Std.LawfulEqOrd.eq_of_compare numbers)

def Symbol.code : Symbol → Nat
  | .terminal t => 2 * t.index
  | .nonterminal n => 2 * n.index + 1

theorem Symbol.code_injective {a b : Symbol} (h : a.code = b.code) : a = b := by
  rcases a with ⟨⟨i⟩⟩ | ⟨⟨i⟩⟩ <;> rcases b with ⟨⟨j⟩⟩ | ⟨⟨j⟩⟩ <;> simp [code] at h ⊢ <;> omega

instance : Ord Symbol := ⟨compareOn Symbol.code⟩

instance : Std.TransOrd Symbol := inferInstanceAs (Std.TransCmp (compareOn Symbol.code))

instance : Std.LawfulEqOrd Symbol where
  eq_of_compare h :=
    Symbol.code_injective (Std.LawfulEqOrd.eq_of_compare h)

end Lookahead
