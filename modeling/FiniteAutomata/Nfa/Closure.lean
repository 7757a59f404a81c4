import FiniteAutomata.Nfa.Basic
import FiniteAutomata.Worklist

/-!
# Epsilon closures

The epsilon closure of a set of states is the smallest superset that no epsilon transition leaves.
It is found by a search: every state that is discovered is queued once, and each queued state is
visited once to discover its epsilon successors.
-/

namespace FiniteAutomata

/-- A search for the states that can be reached without reading anything. -/
structure EpsilonSearch where
  found : Marks
  queue : Worklist StateId

namespace EpsilonSearch

/-- The search before anything is visited. -/
def init (S : StateSet) : EpsilonSearch := ⟨S.toMarks, .ofList S.toList⟩

/-- Queues a state unless it has been found before. -/
def discover : EpsilonSearch → StateId → EpsilonSearch
  | ⟨found, queue⟩, p =>
    let (isOld, found) := found.containsThenInsert p
    ⟨found, if isOld then queue else queue.push p⟩

/-- Whether every queued state has been visited. -/
def isIdle (s : EpsilonSearch) : Bool := s.queue.isDone

/-- Visits the first queued state, if there is one. -/
def visit (N : Nfa) (s : EpsilonSearch) : EpsilonSearch :=
  match s.queue.pop? with
  | some (q, queue) => (N.successors q .epsilon).foldl discover ⟨s.found, queue⟩
  | none => s

/-- A bound on the number of visits: each visits another member of `S` or another state. -/
def bound (N : Nfa) (S : StateSet) : Nat := S.size + N.size

/-- The search after all visits. -/
def run (N : Nfa) (S : StateSet) : EpsilonSearch := exhaust isIdle (visit N) (bound N S) (init S)

end EpsilonSearch

/-- The states that can be reached from members of `S` without reading anything. -/
def Nfa.epsilonClosure (N : Nfa) (S : StateSet) : StateSet := .ofMarks (EpsilonSearch.run N S).found

namespace Nfa

/-- The states in which the automaton can be after reading `a` in some member of `S`. -/
def reach (N : Nfa) (S : StateSet) (a : Symbol) : StateSet := N.epsilonClosure (N.moves S a)

/-- The states in which the automaton can be before it reads anything. -/
def initialSet (N : Nfa) : StateSet := N.epsilonClosure (.singleton N.start)

/-- The sets of states in which the automaton can be, from `S` on along a word, both ends
included. -/
def trace (N : Nfa) (S : StateSet) : List Symbol → List StateSet
  | [] => [S]
  | a :: w => S :: N.trace (N.reach S a) w

/-- The states in which the automaton can be after starting in `S` and reading a word. -/
def run (N : Nfa) (S : StateSet) (w : List Symbol) : StateSet :=
  w.foldl N.reach (N.epsilonClosure S)

/-- Whether some member of a set is accepting. -/
def acceptsIn (N : Nfa) (S : StateSet) : Bool := !S.isDisjoint N.accepting

/-- Whether the automaton accepts a word. -/
def accepts (N : Nfa) (w : List Symbol) : Bool := N.acceptsIn (N.run (.singleton N.start) w)

end Nfa

end FiniteAutomata
