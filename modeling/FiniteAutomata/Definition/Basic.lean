import FiniteAutomata.Label

/-!
# Definitions of automata by name

A `Definition` collects the names of states and symbols, transitions, the start state and the
accepting states of an automaton as they are declared, in order and with repetitions. Nothing is
checked while collecting; `Definition.build` does that for the whole.
-/

namespace FiniteAutomata

/-- A transition whose parts are given by name. The label is the name of a symbol or a spelling of
epsilon. -/
structure NamedTransition where
  source : String
  label : String
  target : String
deriving DecidableEq

/-- The declarations that describe an automaton. -/
structure Definition where
  states : List String
  symbols : List String
  transitions : List NamedTransition
  start? : Option String
  accepting : List String
deriving DecidableEq

namespace Definition

/-- The definition that declares nothing. -/
def empty : Definition := ⟨[], [], [], none, []⟩

instance : EmptyCollection Definition := ⟨empty⟩

instance : Inhabited Definition := ⟨empty⟩

/-- Declares states, in order. -/
def addStates (d : Definition) (names : List String) : Definition :=
  { d with states := d.states ++ names }

/-- Declares a state. -/
def addState (d : Definition) (name : String) : Definition := d.addStates [name]

/-- Declares symbols, in order. -/
def addSymbols (d : Definition) (names : List String) : Definition :=
  { d with symbols := d.symbols ++ names }

/-- Declares a symbol. -/
def addSymbol (d : Definition) (name : String) : Definition := d.addSymbols [name]

/-- Adds transitions, in order. -/
def addTransitions (d : Definition) (ts : List NamedTransition) : Definition :=
  { d with transitions := d.transitions ++ ts }

/-- Adds a transition. -/
def addTransition (d : Definition) (t : NamedTransition) : Definition := d.addTransitions [t]

/-- Adds a transition that reads nothing. -/
def addEpsilon (d : Definition) (source target : String) : Definition :=
  d.addTransition ⟨source, epsilonName, target⟩

/-- Sets the start state in place of an earlier one. -/
def setStart (d : Definition) (name : String) : Definition := { d with start? := some name }

/-- Marks states as accepting. -/
def addAccepting (d : Definition) (names : List String) : Definition :=
  { d with accepting := d.accepting ++ names }

/-- Marks a state as accepting. -/
def addAcceptingState (d : Definition) (name : String) : Definition := d.addAccepting [name]

end Definition

end FiniteAutomata
