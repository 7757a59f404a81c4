import FiniteAutomata.Definition.Build
import FiniteAutomata.Random.Generator

/-!
# Random automata

A random automaton has a given number of states `q0`, `q1`, … and of symbols `a`, …, `z`, `s26`,
`s27`, …. Each possible transition on a symbol is there with one probability and each possible
epsilon transition with another; a state accepts with probability one third, and the first one is
the start. Whether a transition is there never changes how many numbers are drawn, so the choices
do not influence each other.

The numbers come from any generator (`generate`), of which the program has one (`automaton`).
-/

namespace FiniteAutomata.Random

/-- What is asked of a random automaton. -/
structure Shape where
  states : Nat
  symbols : Nat
  density : Float
  epsilonDensity : Float

/-- Why there is no random automaton. -/
inductive ShapeError
  /-- No states are asked for. -/
  | noStates
  /-- The names do not make an automaton. -/
  | rejected (error : DefinitionError)
deriving DecidableEq

/-- The report for the user. -/
def ShapeError.message : ShapeError → String
  | noStates => "an automaton needs at least one state"
  | rejected error => "generated definitions only refer to declared names: " ++ error.message

/-- The name of a state. -/
def stateName (i : Nat) : String := "q" ++ toString i

/-- The name of a symbol, a letter as long as there are letters. -/
def symbolName (i : Nat) : String :=
  if i < 26 then String.singleton (Char.ofNat ('a'.toNat + i)) else "s" ++ toString i

/-- The names of all states. -/
def Shape.stateNames (shape : Shape) : List String := (List.range shape.states).map stateName

/-- The names of all symbols. -/
def Shape.symbolNames (shape : Shape) : List String := (List.range shape.symbols).map symbolName

section

variable {σ : Type} (G : Generator σ)

/-- Draws the transitions from a state to each of the given ones, on symbols and then on
epsilon. -/
def drawTransitions (shape : Shape) (source : String) :
    List String → Draw σ (List NamedTransition)
  | [] => return []
  | target :: targets => do
    let reading ← choose G shape.density shape.symbolNames
    let silent ← choose G shape.epsilonDensity [epsilonName]
    let rest ← drawTransitions shape source targets
    return (reading ++ silent).map (⟨source, ·, target⟩) ++ rest

/-- Draws the transitions from each of the given states, and which of these accept. -/
def drawStates (shape : Shape) : List String → Draw σ (List NamedTransition × List String)
  | [] => return ([], [])
  | source :: sources => do
    let transitions ← drawTransitions G shape source shape.stateNames
    let accepting ← choose G (1.0 / 3.0) [source]
    let (moreTransitions, moreAccepting) ← drawStates shape sources
    return (transitions ++ moreTransitions, accepting ++ moreAccepting)

/-- The definition drawn from a seed. -/
def definition (seed : UInt64) (shape : Shape) : Definition :=
  let ((transitions, accepting), _) := (drawStates G shape shape.stateNames).run (G.ofSeed seed)
  { states := shape.stateNames
    symbols := shape.symbolNames
    transitions
    start? := some (stateName 0)
    accepting }

/-- The automaton drawn from a seed. -/
def generate (seed : UInt64) (shape : Shape) : Except ShapeError Nfa :=
  if shape.states = 0 then .error .noStates
  else (definition G seed shape).build.mapError .rejected

end

/-- The automaton that the program draws from a seed. -/
def automaton : UInt64 → Shape → Except ShapeError Nfa := generate .folding

end FiniteAutomata.Random
