import Lookahead.Automaton.Collection

set_option autoImplicit false

namespace Lookahead

def Numbering.expandM {α ε : Type} [Ord α] [Std.TransOrd α] [Std.LawfulEqOrd α] (next : α → Except ε (List α)) (limit : Nat)
    (s : Numbering α) (i : Nat) : Except ε (Numbering α) :=
  if h : i < s.values.size ∧ s.values.size ≤ limit then
    match next s.values[i] with
    | .ok found => expandM next limit (s.addAll found) (i + 1)
    | .error fault => .error fault
  else .ok s
termination_by limit - i
decreasing_by omega

def positionLimit : Nat := 65535

def Item.stepped (item : Item) : Except Fault Item :=
  if item.position < positionLimit then .ok item.advance
  else .error (.dotOutOfRange item.production (item.position + 1))

-- Positions and state numbers have sixteen bits, and everything is looked up where it is needed: whatever could
-- go wrong on the way is a fault here.
structure Construction where
  met : Numbering (List Item)
  queue : List (Nat × List Item)
  states : Array State

namespace Construction

def start : Construction := ⟨.ofList [[.start]], [(0, [.start])], #[]⟩

def meet (c : Construction) (kernel : List Item) : Except Fault (Nat × Construction) :=
  match c.met.number? kernel with
  | some target => .ok (target, c)
  | none =>
      if c.met.size < Grammar.stateLimit then
        .ok (c.met.size, { c with met := c.met.add kernel, queue := c.queue ++ [(c.met.size, kernel)] })
      else .error .tooManyStates

def connect (c : Construction) : List Shift → Except Fault (List Edge × Construction)
  | [] => .ok ([], c)
  | shift :: rest => do
      let (target, c) ← c.meet shift.kernel
      let (edges, c) ← c.connect rest
      return (⟨shift.symbol, target, (shift.moved.map Prod.fst).zipIdx⟩ :: edges, c)

end Construction

namespace Grammar

variable (g : Grammar)

def lookupSymbol (item : Item) : Except Fault (Option Symbol) :=
  return (← g.production item.production).right[item.position]?

def lookupOpened (item : Item) : Except Fault (List Item) := do
  match ← g.lookupSymbol item with
  | some (.nonterminal n) => return g.entries n
  | _ => return []

def lookupClosures : Except Fault (Array (List Item)) := do
  let closures ← (List.range g.nonterminals.size).mapM fun i =>
    return (← Numbering.expandM g.lookupOpened (g.rules.size + 1) (.ofList (g.entries ⟨i⟩)) 0).toList
  return closures.toArray

def lookupOpenedBy (closures : Array (List Item)) (item : Item) : Except Fault (List Item) := do
  match ← g.lookupSymbol item with
  | some (.nonterminal n) =>
      match closures[n.index]? with
      | some opened => return opened
      | none => throw (.unnamedNonterminal n)
  | _ => return []

def lookupItems (closures : Array (List Item)) (kernel : List Item) : Except Fault (List Item) := do
  let opened ← kernel.mapM (g.lookupOpenedBy closures)
  return (Numbering.ofList (kernel ++ opened.flatten)).toList

def lookupMove (entry : Item × Nat) : Except Fault (List (Symbol × Nat × Item)) := do
  match ← g.lookupSymbol entry.1 with
  | some x => if x = .terminal .endOfInput then return [] else return [(x, entry.2, ← entry.1.stepped)]
  | none => return []

def gatherShifts (moves : List (Symbol × Nat × Item)) : List Shift :=
  (Numbering.ofList (moves.map Prod.fst)).toList.map fun x =>
    ⟨x, sortByItem ((moves.filter fun move => move.1 = x).map Prod.snd)⟩

def lookupShifts (items : List Item) : Except Fault (List Shift) := do
  let moves ← items.zipIdx.mapM g.lookupMove
  return gatherShifts moves.flatten

def build (closures : Array (List Item)) (c : Construction) (number : Nat) (kernel : List Item) :
    Except Fault Construction :=
  if number = c.states.size then do
    let items ← g.lookupItems closures kernel
    let shifts ← g.lookupShifts items
    let (edges, c) ← c.connect shifts
    return { c with states := c.states.push ⟨items.toArray, kernel.length, edges⟩ }
  else .error (.unknownState number)

end Grammar

namespace Construction

-- The states that are still to be built: those in the queue, and those for which there is a number left.
def remaining (c : Construction) : Nat := c.queue.length + (Grammar.stateLimit - c.met.size)

theorem meet_remaining {c c' : Construction} {kernel : List Item} {target : Nat}
    (ran : c.meet kernel = .ok (target, c')) : c'.remaining = c.remaining := by
  unfold meet at ran
  split at ran
  · cases ran
    rfl
  · rename_i unknown
    split at ran
    · rename_i room
      cases ran
      have grown : (c.met.add kernel).size = c.met.size + 1 := by
        have fresh : c.met.numbers[kernel]? = none := unknown
        unfold Numbering.add
        split
        · rename_i known
          rw [fresh] at known
          cases known
        · simp [Numbering.size]
      simp only [remaining, List.length_append, List.length_singleton, grown]
      omega
    · cases ran

theorem connect_remaining {c c' : Construction} {shifts : List Shift} {edges : List Edge}
    (ran : c.connect shifts = .ok (edges, c')) : c'.remaining = c.remaining := by
  induction shifts generalizing c edges with
  | nil =>
      cases ran
      rfl
  | cons shift rest ih =>
      obtain ⟨met, meeting, ran⟩ := bind_eq_ok_iff.mp ran
      obtain ⟨built, others, ran⟩ := bind_eq_ok_iff.mp ran
      cases ran
      exact (ih others).trans (meet_remaining meeting)

end Construction

namespace Grammar

theorem build_remaining {g : Grammar} {closures : Array (List Item)} {c c' : Construction} {number : Nat}
    {kernel : List Item} (ran : g.build closures c number kernel = .ok c') : c'.remaining = c.remaining := by
  unfold build at ran
  by_cases next : number = c.states.size
  · rw [if_pos next] at ran
    obtain ⟨items, -, ran⟩ := bind_eq_ok_iff.mp ran
    obtain ⟨shifts, -, ran⟩ := bind_eq_ok_iff.mp ran
    obtain ⟨connected, ran', last⟩ := bind_eq_ok_iff.mp ran
    cases last
    have kept : connected.2.remaining = c.remaining := Construction.connect_remaining ran'
    exact kept
  · rw [if_neg next] at ran
    cases ran

def runConstruction (g : Grammar) (closures : Array (List Item)) (c : Construction) : Except Fault Automaton :=
  match _waiting : c.queue with
  | [] => .ok ⟨c.states⟩
  | (number, kernel) :: rest =>
      match _built : g.build closures { c with queue := rest } number kernel with
      | .error fault => .error fault
      | .ok c' => g.runConstruction closures c'
termination_by c.remaining
decreasing_by
  rw [build_remaining _built]
  simp [Construction.remaining, _waiting]

def construct (g : Grammar) : Except Fault Automaton := do
  g.runConstruction (← g.lookupClosures) .start

end Grammar

end Lookahead
