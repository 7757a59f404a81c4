import FiniteAutomata.Definition.Basic
import FiniteAutomata.Definition.Error
import FiniteAutomata.Nfa.Basic

/-!
# From a definition to an automaton

`Definition.build` checks a definition and gives the automaton it describes, or the first
violation in this order:

1. there is a state,
2. no state and no symbol has a reserved name,
3. each transition, in order, has a declared source, a label that denotes something, and a declared
   target,
4. the start state is set and declared,
5. each accepting state, in order, is declared.

Repeated declarations are merged. Names are resolved to ids that carry the evidence of being
declared (`NameTable.resolve`), which is what the automaton asks for.
-/

namespace FiniteAutomata

/-- The id of a name, known to be in the table. -/
def NameTable.resolve {s : Space} (t : NameTable s) (name : String) :
    Option { i : Index s // t.Has i } :=
  match h : t.find? name with
  | some i => some ⟨i, has_of_find? h⟩
  | none => none

/-- The label of a text, known to be one of the alphabet. -/
def Alphabet.resolveLabel (A : Alphabet) (text : String) : Option { l : Label // A.HasLabel l } :=
  match h : A.label? text with
  | some l => some ⟨l, hasLabel_of_label? h⟩
  | none => none

/-- The value found, or the error that reports its absence. -/
def foundOr {ε α : Type} (found : Option α) (error : ε) : Except ε α :=
  match found with
  | some x => .ok x
  | none => .error error

namespace Definition

/-- The first reserved name among the states and then the symbols. -/
def firstReserved? (d : Definition) : Option (String × NameKind) :=
  (d.states.map (·, NameKind.state) ++ d.symbols.map (·, NameKind.symbol)).find?
    fun declared => isReserved declared.1

/-- The declared names are acceptable in themselves. -/
def checkNames (d : Definition) : Except DefinitionError Unit :=
  if d.states.isEmpty then .error .noStates
  else match d.firstReserved? with
    | some (name, kind) => .error (.reservedIdentifier name kind)
    | none => .ok ()

/-- The transition between the declared states and on the declared symbol of these names. -/
def resolveTransition (states : NameTable .state) (alphabet : Alphabet) (t : NamedTransition) :
    Except DefinitionError { u : Transition // u.Within states alphabet } := do
  let q ← foundOr (states.resolve t.source) (.unknownState t.source)
  let l ← foundOr (alphabet.resolveLabel t.label) (.unknownSymbol t.label)
  let p ← foundOr (states.resolve t.target) (.unknownState t.target)
  return ⟨⟨q.1, l.1, p.1⟩, ⟨q.2, l.2, p.2⟩⟩

/-- The declared start state. -/
def resolveStart (states : NameTable .state) (start? : Option String) :
    Except DefinitionError { q : StateId // states.Has q } := do
  let name ← foundOr start? .missingStart
  foundOr (states.resolve name) (.invalidStart name)

/-- The declared state that accepts. -/
def resolveAccepting (states : NameTable .state) (name : String) :
    Except DefinitionError { q : StateId // states.Has q } :=
  foundOr (states.resolve name) (.invalidAccepting name)

/-- The automaton whose names have all been resolved. -/
def assemble (states : NameTable .state) (alphabet : Alphabet)
    (transitions : List { t : Transition // t.Within states alphabet })
    (start : { q : StateId // states.Has q })
    (accepting : List { q : StateId // states.Has q }) : Nfa where
  states := states
  alphabet := alphabet
  relation := .ofList (transitions.map (·.1))
  start := start.1
  accepting := .ofList (accepting.map (·.1))
  start_has := start.2
  accepting_has q hq := by
    obtain ⟨p, -, rfl⟩ := List.mem_map.1 (StateSet.mem_ofList.1 hq)
    exact p.2
  transition_within t ht := by
    obtain ⟨u, -, rfl⟩ := List.mem_map.1 (Relation.holds_ofList.1 ht)
    exact u.2

/-- The automaton that the definition describes, or the first violation found in it. -/
def build (d : Definition) : Except DefinitionError Nfa := do
  d.checkNames
  let states := NameTable.ofList d.states
  let alphabet := NameTable.ofList d.symbols
  let transitions ← d.transitions.mapM (resolveTransition states alphabet)
  let start ← resolveStart states d.start?
  let accepting ← d.accepting.mapM (resolveAccepting states)
  return assemble states alphabet transitions start accepting

end Definition

end FiniteAutomata
