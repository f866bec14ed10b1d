import Lookahead.Symbol
import Lookahead.BitSet.Basic
import Lookahead.Numbering
import Lookahead.Fault
import Lookahead.Grammar.Basic
import Lookahead.Grammar.Definition
import Lookahead.Grammar.Text
import Lookahead.Grammar.Examples
import Lookahead.Context
import Lookahead.Automaton.Item
import Lookahead.Automaton.Basic
import Lookahead.Automaton.Collection
import Lookahead.Automaton.Construction
import Lookahead.Automaton.Text
import Lookahead.Table.Text
import Lookahead.BitSet.Store
import Lookahead.BitSet.Session
import Lookahead.Main
import Lookahead.Proofs.Search
import Lookahead.Proofs.WellFormed
import Lookahead.Proofs.Derivation
import Lookahead.Proofs.Context
import Lookahead.Proofs.Kernel
import Lookahead.Proofs.Collection
import Lookahead.Proofs.Canonical
import Lookahead.Proofs.Family
import Lookahead.Proofs.Outlook
import Lookahead.Proofs.Rest
import Lookahead.Proofs.Row
import Lookahead.Proofs.Board
import Lookahead.Proofs.Table
import Lookahead.Proofs.Total
import Lookahead.Proofs.Passage
import Lookahead.Proofs.Exact
import Lookahead.Proofs.Activity
import Lookahead.Proofs.Interference
import Lookahead.Proofs.Tree
import Lookahead.Proofs.Layout
import Lookahead.Proofs.Boundary
import Lookahead.Proofs.Precision
import Lookahead.Proofs.Arrangement
import Lookahead.Proofs.Declaration
import Lookahead.Proofs.Construction
import Lookahead.Proofs.Correspondence
import Lookahead.Proofs.Order
import Lookahead.Proofs.Saturation
import Lookahead.Proofs.Uniform
import Lookahead.Proofs.Residue
import Lookahead.Proofs.Discovery
import Lookahead.Proofs.Locality
import Lookahead.Proofs.Extension
import Lookahead.Proofs.Store
import Lookahead.Proofs.Session
