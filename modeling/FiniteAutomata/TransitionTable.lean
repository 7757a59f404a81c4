import FiniteAutomata.Dfa.Basic
import FiniteAutomata.Grid
import FiniteAutomata.Nfa.Basic

/-!
# Transition tables

The transition table of an automaton has a row for each state and a column for each label. The
first cell of a row is the name of the state, marked with `→` if it is initial and with `*` if it
accepts; the others are the targets. In a highlighted table the marked names of accepting states
stand between two fixed texts (`Highlight`), in the program the codes that switch a terminal to bold
and green and back.
-/

namespace FiniteAutomata.TransitionTable

/-- What is written in front of a highlighted text and behind it. -/
structure Highlight where
  opening : String
  closing : String

/-- Writes a text between the two. -/
def Highlight.apply (H : Highlight) (text : String) : String := H.opening ++ text ++ H.closing

/-- Bold and green. -/
def Highlight.boldGreen : Highlight := ⟨"\x1b[1m\x1b[32m", "\x1b[39m\x1b[0m"⟩

/-- The marks of a state. -/
def marks (initial accepting : Bool) : String :=
  (if initial then "→" else "") ++ (if accepting then "*" else "")

/-- A name with the marks of its state. -/
def decorate (H : Highlight) (highlighted initial accepting : Bool) (name : String) : String :=
  let decorated := marks initial accepting ++ name
  if highlighted && accepting then H.apply decorated else decorated

end FiniteAutomata.TransitionTable

namespace FiniteAutomata

open TransitionTable

namespace Nfa

/-- The names of the symbols, and epsilon in the last column. -/
def tableColumns (N : Nfa) : List String := N.alphabet.names ++ [epsilonName]

/-- The labels of the columns. -/
def columnLabels (N : Nfa) : List Label := N.alphabet.ids.map .symbol ++ [.epsilon]

/-- The targets of a state on a label, or a dash if there are none. -/
def tableCell (N : Nfa) (q : StateId) (l : Label) : String :=
  match N.targets? q l with
  | some S => if S.isEmpty then "-" else N.setText S
  | none => "-"

theorem tableCell_of_targets?_eq_none {N : Nfa} {q : StateId} {l : Label}
    (h : N.targets? q l = none) : N.tableCell q l = "-" := by
  rw [tableCell, h]

/-- Sets of targets are not empty. -/
theorem tableCell_of_targets? {N : Nfa} {q : StateId} {l : Label} {S : StateSet}
    (h : N.targets? q l = some S) : N.tableCell q l = N.setText S := by
  have hne : S.isEmpty = false := N.relation.isEmpty_eq_false (q, l) S h
  simp only [tableCell, h, hne, Bool.false_eq_true, if_false]

/-- The row of a state. -/
def tableRow (N : Nfa) (H : Highlight) (highlighted : Bool) (q : StateId) : List String :=
  decorate H highlighted (q == N.start) (N.isAccepting q) (N.states.text q)
    :: N.columnLabels.map (N.tableCell q)

/-- A row for each state. -/
def tableRows (N : Nfa) (H : Highlight) (highlighted : Bool) : List (List String) :=
  N.stateIds.map (N.tableRow H highlighted)

/-- The transition table. -/
def table (N : Nfa) (highlighted : Bool) : Grid :=
  ⟨N.tableColumns, N.tableRows .boldGreen highlighted⟩

end Nfa

namespace Dfa

/-- The names of the symbols. -/
def tableColumns (D : Dfa) : List String := D.alphabet.names

/-- What the successor of a state on a symbol is shown as. -/
def tableCell (D : Dfa) (i : DfaStateId) (a : Symbol) : String :=
  match D.successor i a with
  | .ok j => D.stateText j
  | .error _ => ""

/-- The row of a state. -/
def tableRow (D : Dfa) (H : Highlight) (highlighted : Bool) (i : DfaStateId) : List String :=
  decorate H highlighted (i == D.start) (D.acceptsAt i) (D.stateText i)
    :: D.alphabet.ids.map (D.tableCell i)

/-- A row for each state. -/
def tableRows (D : Dfa) (H : Highlight) (highlighted : Bool) : List (List String) :=
  D.stateIds.map (D.tableRow H highlighted)

/-- The transition table. -/
def table (D : Dfa) (highlighted : Bool) : Grid :=
  ⟨D.tableColumns, D.tableRows .boldGreen highlighted⟩

end Dfa

end FiniteAutomata
