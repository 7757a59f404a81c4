import FiniteAutomata.Alphabet
import FiniteAutomata.Relation

/-!
# Nondeterministic automata

An `Nfa` has named states, an alphabet, a transition relation whose labels are symbols or epsilon,
a start state and a set of accepting states. Every id in it refers to a declared state or symbol;
the last three fields say so.

Queries take any id. A foreign state accepts nothing and moves nowhere, and the queries that need
a name for it (`name`, `showSet`) report it as an `AccessError`.
-/

namespace FiniteAutomata

/-- The parts of a transition are a state, a label and a state of these tables. -/
structure Transition.Within (states : NameTable .state) (alphabet : Alphabet) (t : Transition) :
    Prop where
  source_has : states.Has t.source
  label_has : alphabet.HasLabel t.label
  target_has : states.Has t.target

/-- A nondeterministic finite automaton with epsilon transitions. -/
structure Nfa where
  states : NameTable .state
  alphabet : Alphabet
  relation : Relation
  start : StateId
  accepting : StateSet
  start_has : states.Has start
  accepting_has : ∀ q ∈ accepting, states.Has q
  transition_within : ∀ t, relation.Holds t → t.Within states alphabet
deriving DecidableEq

namespace Nfa

/-- The number of states. -/
def size (N : Nfa) : Nat := N.states.size

/-- The states in declaration order. -/
def stateIds (N : Nfa) : List StateId := N.states.ids

/-- Whether `q` is an accepting state. -/
def isAccepting (N : Nfa) (q : StateId) : Bool := N.accepting.contains q

/-- The direct successors of `q` on `l` in ascending order. -/
def successors (N : Nfa) (q : StateId) (l : Label) : List StateId := N.relation.successors q l

/-- The set of direct successors of `q` on `l`, if there are any. -/
def targets? (N : Nfa) (q : StateId) (l : Label) : Option StateSet := N.relation.targets? q l

/-- All transitions, ordered by source, then label with epsilon first, then target. -/
def transitions (N : Nfa) : List Transition := N.relation.transitions

/-- Whether some transition reads nothing. -/
def hasEpsilonTransitions (N : Nfa) : Bool := N.transitions.any (·.label.isEpsilon)

/-- The name of a state of the automaton. -/
def name (N : Nfa) (q : StateId) : Except AccessError String :=
  match N.states.name? q with
  | some name => .ok name
  | none => .error (.foreignState q)

/-- The names of the members of a set of states, for example `{A, B}`. -/
def setText (N : Nfa) (S : StateSet) : String := Text.braced (S.toList.map N.states.text)

/-- The names of the members of a set, all of which have to be states of the automaton. -/
def showSet (N : Nfa) (S : StateSet) : Except AccessError String :=
  match S.toList.find? fun q => !decide (N.states.Has q) with
  | some q => .error (.foreignState q)
  | none => .ok (N.setText S)

/-- The collected symbol successors of the members of a set. Epsilon transitions are not
followed. -/
def moves (N : Nfa) (S : StateSet) (a : Symbol) : StateSet :=
  .ofList (S.toList.flatMap fun q => N.successors q (.symbol a))

theorem mem_moves {N : Nfa} {S : StateSet} {a : Symbol} {p : StateId} :
    p ∈ N.moves S a ↔ ∃ q ∈ S, p ∈ N.successors q (.symbol a) := by
  simp [moves]

theorem mem_transitions {N : Nfa} {t : Transition} : t ∈ N.transitions ↔ N.relation.Holds t :=
  Relation.mem_transitions

/-! ## Equality -/

theorem ext_parts {N M : Nfa} (hstates : N.states = M.states) (halphabet : N.alphabet = M.alphabet)
    (hrelation : N.relation = M.relation) (hstart : N.start = M.start)
    (haccepting : N.accepting = M.accepting) : N = M := by
  cases N; cases M
  subst hstates halphabet hrelation hstart haccepting
  rfl

theorem accepting_eq_of_isAccepting {N M : Nfa} (hhas : ∀ q, N.states.Has q ↔ M.states.Has q)
    (h : ∀ q, N.states.Has q → N.isAccepting q = M.isAccepting q) : N.accepting = M.accepting := by
  have hmem : ∀ q, N.states.Has q → (q ∈ N.accepting ↔ q ∈ M.accepting) := fun q hq => by
    rw [← StateSet.contains_eq_true, ← StateSet.contains_eq_true]
    exact Bool.eq_iff_iff.1 (h q hq)
  refine StateSet.ext fun q => ⟨fun hq => (hmem q (N.accepting_has q hq)).1 hq, fun hq => ?_⟩
  exact (hmem q ((hhas q).2 (M.accepting_has q hq))).2 hq

end Nfa

end FiniteAutomata
