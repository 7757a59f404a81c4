import Std.Data.ExtTreeMap
import FiniteAutomata.Dfa.Basic

/-!
# Automata under construction

While a deterministic automaton is being made, its states are kept in an `Arena` together with an
index from states to ids. `intern` looks a state up and adds it if it is new, deciding acceptance
at that moment; `pushSuccessor` appends to a row, and `pushInOrder?` does so only if the row has
got as far as the symbol in question.
-/

namespace FiniteAutomata

/-- The states found so far, with their rows as far as they are filled. -/
structure Arena where
  states : Array DfaState
  index : Std.ExtTreeMap DfaState DfaStateId
  accepting : Array Bool
  rows : Array (Array DfaStateId)
  sink? : Option DfaStateId

namespace Arena

/-- The arena without states. -/
def empty : Arena := ⟨#[], ∅, #[], #[], none⟩

instance : EmptyCollection Arena := ⟨empty⟩

/-- The number of states. -/
def size (A : Arena) : Nat := A.states.size

/-- The id that the next state gets. -/
def nextId (A : Arena) : DfaStateId := Index.ofNat A.size

/-- The arena after adding a state under the id `i`. -/
def add (A : Arena) (accepting : StateSet) (s : DfaState) (i : DfaStateId) : Arena where
  states := A.states.push s
  index := A.index.insert s i
  accepting := A.accepting.push (s.isAcceptingFor accepting)
  rows := A.rows.push #[]
  sink? := if s.isSink then some i else A.sink?

/-- The id of a state, which is added if it is new, and whether it is new. -/
def intern (A : Arena) (accepting : StateSet) (s : DfaState) : Arena × DfaStateId × Bool :=
  match A.index[s]? with
  | some i => (A, i, false)
  | none =>
    let i := A.nextId
    (A.add accepting s i, i, true)

/-- Appends a successor to the row of `source`. The rows are filled in alphabet order. -/
def pushSuccessor (A : Arena) (source target : DfaStateId) : Arena :=
  { A with rows := A.rows.modify source.toNat (·.push target) }

/-- Appends the successor on `a` to the row of `source`, unless that is not the next one due. -/
def pushInOrder? (A : Arena) (source : DfaStateId) (a : Symbol) (target : DfaStateId) :
    Option Arena :=
  match A.rows[source.toNat]? with
  | some row => if row.size = a.toNat then some (A.pushSuccessor source target) else none
  | none => none

/-- The finished automaton. -/
def toDfa (A : Arena) (alphabet : Alphabet) (memberNames : NameTable .state) : Dfa where
  alphabet := alphabet
  memberNames := memberNames
  states := A.states
  index := A.index
  accepting := A.accepting
  rows := A.rows
  sink? := A.sink?

end Arena

end FiniteAutomata
