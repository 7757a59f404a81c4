import Std.Data.ExtTreeMap
import FiniteAutomata.Alphabet
import FiniteAutomata.StateSet

/-!
# Deterministic automata

A `Dfa` is the result of the subset construction: its states in order of discovery, an index from
states back to their ids, for each of them whether it accepts, and a row with its successor on each
symbol of the alphabet. State 0 is the start.

A state stands for a set of states of the nondeterministic automaton, or it is the sink, which
absorbs every move without a counterpart there. The sink is not a set, so it differs from the empty
set too. States are ordered by their sets, with the sink after all of them. A state is shown by the
names of the states it stands for, `{A, B}`, and the sink as `Trap`.

Queries about an id of the automaton read the state list, the acceptance list or the rows, and
report an id outside of them as an `AccessError`; `stateText` and `acceptsAt` are the same for ids
known to be inside.

A summary lists the states, the alphabet, each transition on a line of its own, the start state and
the accepting states, all by the names under which they are shown.
-/

namespace FiniteAutomata

/-! ## States -/

/-- A set of states, or the sink. -/
inductive DfaState
  | subset (S : StateSet)
  | sink
deriving DecidableEq

namespace DfaState

instance : Inhabited DfaState := ⟨sink⟩

/-- Whether the state is the sink. -/
def isSink : DfaState → Bool
  | subset _ => false
  | sink => true

/-- The set that the state stands for. -/
def subset? : DfaState → Option StateSet
  | subset S => some S
  | sink => none

/-- Whether the state has an accepting member. The sink has no members. -/
def isAcceptingFor (accepting : StateSet) : DfaState → Bool
  | subset S => !S.isDisjoint accepting
  | sink => false

/-- Compares the sets, and puts the sink last. -/
protected def compare : DfaState → DfaState → Ordering
  | subset S, subset T => compare S T
  | subset _, sink => .lt
  | sink, subset _ => .gt
  | sink, sink => .eq

instance : Ord DfaState := ⟨DfaState.compare⟩

instance : Std.TransOrd DfaState where
  eq_swap {x y} :=
    match x, y with
    | subset _, subset _ => Std.OrientedOrd.eq_swap (α := StateSet)
    | subset _, sink | sink, subset _ | sink, sink => rfl
  isLE_trans {x y z} hxy hyz :=
    match x, y, z with
    | subset _, subset _, subset _ => Std.TransOrd.isLE_trans (α := StateSet) hxy hyz
    | subset _, _, sink | sink, sink, sink => rfl
    | _, sink, subset _ => nomatch hyz
    | sink, subset _, _ => nomatch hxy

instance : Std.LawfulEqOrd DfaState where
  eq_of_compare {x y} h :=
    match x, y with
    | subset _, subset _ =>
      congrArg subset (Std.LawfulEqOrd.eq_of_compare (α := StateSet) h)
    | subset _, sink | sink, subset _ => nomatch h
    | sink, sink => rfl

end DfaState

/-! ## Automata -/

/-- A move of a deterministic automaton. -/
structure DfaTransition where
  source : DfaStateId
  symbol : Symbol
  target : DfaStateId
deriving DecidableEq

/-- A deterministic finite automaton whose states stand for sets of named states. -/
structure Dfa where
  alphabet : Alphabet
  /-- The names of the states that the sets are made of. -/
  memberNames : NameTable .state
  states : Array DfaState
  /-- The id of each state. -/
  index : Std.ExtTreeMap DfaState DfaStateId
  accepting : Array Bool
  /-- A row for each state, with a column for each symbol. -/
  rows : Array (Array DfaStateId)
  sink? : Option DfaStateId
deriving DecidableEq

namespace Dfa

/-- The number of states, the sink included. -/
def size (D : Dfa) : Nat := D.states.size

/-- The states in order of discovery. -/
def stateIds (D : Dfa) : List DfaStateId := (List.range D.size).map Index.ofNat

/-- The initial state. -/
def start (_D : Dfa) : DfaStateId := Index.ofNat 0

/-- What a state stands for. -/
def state (D : Dfa) (i : DfaStateId) : Except AccessError DfaState := i.read D.states

/-- The state that stands for exactly this set. -/
def find? (D : Dfa) (S : StateSet) : Option DfaStateId := D.index[DfaState.subset S]?

/-- Whether the state is the sink. -/
def isSink (D : Dfa) (i : DfaStateId) : Bool := D.sink? == some i

/-- Whether a state of the automaton accepts. -/
def isAccepting (D : Dfa) (i : DfaStateId) : Except AccessError Bool := i.read D.accepting

/-- Whether the state accepts, which a foreign one does not. -/
def acceptsAt (D : Dfa) (i : DfaStateId) : Bool := D.accepting[i.toNat]?.getD false

/-- The accepting states in order of discovery. -/
def acceptingStates (D : Dfa) : List DfaStateId := D.stateIds.filter D.acceptsAt

/-- The only successor of a state on a symbol. -/
def successor (D : Dfa) (i : DfaStateId) (a : Symbol) : Except AccessError DfaStateId := do
  let row ← i.read D.rows
  a.read row

/-- All transitions, ordered by source and then by symbol. -/
def transitions (D : Dfa) : List DfaTransition :=
  D.rows.toList.zipIdx.flatMap fun (row, q) =>
    row.toList.zipIdx.map fun (p, a) => ⟨Index.ofNat q, Index.ofNat a, p⟩

/-- What a state is shown as. -/
def textOf (D : Dfa) : DfaState → String
  | .subset S => Text.braced (S.toList.map D.memberNames.text)
  | .sink => sinkName

/-- What the state at an id is shown as. -/
def stateText (D : Dfa) (i : DfaStateId) : String :=
  match D.states[i.toNat]? with
  | some s => D.textOf s
  | none => ""

/-- The name of a member of a set. -/
def memberName (D : Dfa) (q : StateId) : Except AccessError String :=
  match D.memberNames.name? q with
  | some name => .ok name
  | none => .error (.outOfBounds D.memberNames.size q.toNat)

/-- What a state is shown as, whose members all have to have names. -/
def labelOf (D : Dfa) : DfaState → Except AccessError String
  | .subset S => do return Text.braced (← S.toList.mapM D.memberName)
  | .sink => .ok sinkName

/-- What a state of the automaton is shown as. -/
def stateLabel (D : Dfa) (i : DfaStateId) : Except AccessError String := do
  D.labelOf (← D.state i)

/-- The states passed on the way from `i` along a word, both ends included. -/
def trace (D : Dfa) (i : DfaStateId) : List Symbol → Except AccessError (List DfaStateId)
  | [] => .ok [i]
  | a :: w => do
    let j ← D.successor i a
    return i :: (← D.trace j w)

/-- The state reached from `i` along a word. -/
def run (D : Dfa) (i : DfaStateId) (w : List Symbol) : Except AccessError DfaStateId :=
  w.foldlM D.successor i

/-- Whether the automaton accepts a word. -/
def accepts (D : Dfa) (w : List Symbol) : Except AccessError Bool := do
  D.isAccepting (← D.run D.start w)

/-! ## Summaries -/

/-- The line of a transition. -/
def summaryLine (D : Dfa) (t : DfaTransition) : String :=
  "  " ++ D.stateText t.source ++ " --(" ++ D.alphabet.text t.symbol ++ ")--> "
    ++ D.stateText t.target

/-- The lines of the summary. -/
def summaryLines (D : Dfa) : List String :=
  ["States: " ++ Text.enumerate (D.stateIds.map D.stateText),
    "Alphabet: " ++ D.alphabet.toString,
    "Transitions:"]
  ++ D.transitions.map D.summaryLine
  ++ ["Start State: " ++ D.stateText D.start,
    "Accept States: " ++ Text.enumerate (D.acceptingStates.map D.stateText)]

/-- The summary of the automaton. -/
def summary (D : Dfa) : String := "\n".intercalate D.summaryLines

end Dfa

end FiniteAutomata
