/-!
# Why a definition is rejected

Each `DefinitionError` is one way in which the names of a definition do not fit together. An
`InputError` says why a written definition cannot be read: the text can be unreadable, break off,
hold a line that is not a transition, or describe something that is rejected as a definition.
-/

namespace FiniteAutomata

/-- What a name is declared as. -/
inductive NameKind
  | state
  | symbol
deriving DecidableEq

/-- The word for what a name is declared as. -/
def NameKind.word : NameKind → String
  | state => "state"
  | symbol => "symbol"

/-- A reason for rejecting a definition. -/
inductive DefinitionError
  /-- No state is declared. -/
  | noStates
  /-- A state or symbol has a reserved name. -/
  | reservedIdentifier (name : String) (kind : NameKind)
  /-- A transition starts or ends in an undeclared state. -/
  | unknownState (name : String)
  /-- A transition has a label that is neither a declared symbol nor epsilon. -/
  | unknownSymbol (name : String)
  /-- No start state is set. -/
  | missingStart
  /-- The start state is undeclared. -/
  | invalidStart (name : String)
  /-- An accepting state is undeclared. -/
  | invalidAccepting (name : String)
deriving DecidableEq

/-- The report for the user. -/
def DefinitionError.message : DefinitionError → String
  | noStates => "the automaton must have at least one state"
  | reservedIdentifier name kind =>
    kind.word ++ " \"" ++ name ++ "\" collides with a reserved identifier"
  | unknownState name => "transition refers to undeclared state \"" ++ name ++ "\""
  | unknownSymbol name =>
    "transition label \"" ++ name ++ "\" is neither a declared symbol nor epsilon"
  | missingStart => "no start state was given"
  | invalidStart name => "start state \"" ++ name ++ "\" is not a declared state"
  | invalidAccepting name => "accepting state \"" ++ name ++ "\" is not a declared state"

/-! ## Written definitions -/

/-- Why a source of text cannot be read. -/
inductive ReadFault
  /-- A line is not UTF-8. -/
  | notText
  /-- There is no file of the given name. -/
  | noSuchFile
  /-- The name leads through a file that is no directory. -/
  | notDirectory
  /-- The name is that of a directory. -/
  | isDirectory
  /-- The name or a part of it is too long. -/
  | nameTooLong
  /-- The system gives another reason. -/
  | other (reason : String)
deriving DecidableEq

/-- The report for the user. -/
def ReadFault.message : ReadFault → String
  | notText => "stream did not contain valid UTF-8"
  | noSuchFile => "No such file or directory (os error 2)"
  | notDirectory => "Not a directory (os error 20)"
  | isDirectory => "Is a directory (os error 21)"
  | nameTooLong => "File name too long (os error 36)"
  | other reason => reason

/-- The parts of a written definition that have to be there. -/
inductive Section
  | states
  | alphabet
  | transitions
  | startState
deriving DecidableEq

/-- The name of a part for the user. -/
def Section.name : Section → String
  | states => "states"
  | alphabet => "alphabet"
  | transitions => "transitions"
  | startState => "start state"

/-- A reason why no automaton can be read. -/
inductive InputError
  /-- The source cannot be read. -/
  | unreadable (fault : ReadFault)
  /-- The line of this number is neither a transition nor the end of the transitions. -/
  | malformed (line : Nat)
  /-- The input ends before this part. -/
  | truncated (part : Section)
  /-- The definition that was read is rejected. -/
  | rejected (error : DefinitionError)
deriving DecidableEq

/-- The report for the user. -/
def InputError.message : InputError → String
  | unreadable fault => "could not read input: " ++ fault.message
  | malformed line =>
    "line " ++ toString line ++ ": expected `source,symbol,destination` or `done`"
  | truncated part => "input ended before the " ++ part.name ++ " section"
  | rejected error => error.message

end FiniteAutomata
