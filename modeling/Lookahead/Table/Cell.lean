import Lookahead.BitSet.Basic

set_option autoImplicit false

namespace Lookahead

structure Cell where
  -- The terminals that may follow what the item's production derives.
  lookahead : TerminalSet
  -- The layout admissible before the symbols that the item has consumed.
  opening : LayoutSet
  -- The layout admissible between the end of the item and its look-ahead.
  closing : LayoutSet
deriving DecidableEq

namespace Cell

instance : EmptyCollection Cell := ⟨⟨∅, ∅, ∅⟩⟩

instance : Union Cell :=
  ⟨fun c d => ⟨c.lookahead ∪ d.lookahead, c.opening ∪ d.opening, c.closing ∪ d.closing⟩⟩

instance : HasSubset Cell :=
  ⟨fun c d => c.lookahead ⊆ d.lookahead ∧ c.opening ⊆ d.opening ∧ c.closing ⊆ d.closing⟩

instance (c d : Cell) : Decidable (c ⊆ d) :=
  inferInstanceAs (Decidable (_ ∧ _ ∧ _))

end Cell

end Lookahead
