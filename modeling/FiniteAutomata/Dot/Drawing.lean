import Std.Data.ExtTreeMap
import FiniteAutomata.Dfa.Basic
import FiniteAutomata.Dot.Graph
import FiniteAutomata.Nfa.Basic

/-!
# Drawings of automata

Both kinds of automata are drawn as graphs whose nodes are identified by state ids and labelled by
names. A nondeterministic automaton has an edge for each transition. A deterministic one has an
edge for each pair of states between which there is a transition, labelled with all the symbols
that lead from the one to the other in alphabet order; its edges are ordered by source and then by
target.
-/

namespace FiniteAutomata

open Dot

/-- An edge between two states. -/
structure StateEdge (s : Space) where
  source : Index s
  label : String
  target : Index s
deriving DecidableEq

/-- The edge between the nodes of the states. -/
def StateEdge.draw {s : Space} (e : StateEdge s) : Edge :=
  ⟨toString e.source, e.label, toString e.target⟩

namespace Nfa

/-- The node of a state. -/
def dotNode (N : Nfa) (q : StateId) : Node :=
  ⟨toString q, stateAttributes (N.states.text q) (q == N.start) (N.isAccepting q)⟩

/-- The edges, one for each transition. -/
def dotEdges (N : Nfa) : List (StateEdge .state) :=
  N.transitions.map fun t => ⟨t.source, N.alphabet.labelText t.label, t.target⟩

/-- The drawing of the automaton. -/
def toGraph (N : Nfa) : Graph where
  name? := some "NFA"
  nodes := N.stateIds.map N.dotNode
  initial := toString N.start
  edges := N.dotEdges.map StateEdge.draw

end Nfa

namespace Dfa

/-- Symbols grouped by source and target of the transitions that read them. -/
abbrev ParallelSymbols := Std.ExtTreeMap (DfaStateId × DfaStateId) (List Symbol) comparePair

/-- The node of a state. -/
def dotNode (D : Dfa) (i : DfaStateId) : Node :=
  ⟨toString i, stateAttributes (D.stateText i) (i == D.start) (D.acceptsAt i)⟩

/-- Adds the symbol of a transition to those between the same states. -/
def addParallel (groups : ParallelSymbols) (t : DfaTransition) : ParallelSymbols :=
  groups.alter (t.source, t.target) fun symbols => some (symbols.getD [] ++ [t.symbol])

/-- The symbols that lead from one state to another, for all pairs that have any. -/
def parallelSymbols (D : Dfa) : ParallelSymbols := D.transitions.foldl addParallel ∅

/-- The edges, one for all transitions between the same states. -/
def dotEdges (D : Dfa) : List (StateEdge .dfaState) :=
  D.parallelSymbols.toList.map fun ((source, target), symbols) =>
    ⟨source, Text.enumerate (symbols.map D.alphabet.text), target⟩

/-- The drawing of the automaton. -/
def toGraph (D : Dfa) : Graph where
  name? := some "DFA"
  nodes := D.stateIds.map D.dotNode
  initial := toString D.start
  edges := D.dotEdges.map StateEdge.draw

end Dfa

end FiniteAutomata
