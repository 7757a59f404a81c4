import FiniteAutomata.Definition.Build
import FiniteAutomata.Definition.Error
import FiniteAutomata.Text.Basic

/-!
# Reading definitions

A written definition is a sequence of lines:

* the names of the states, separated by commas,
* the names of the symbols, separated by commas,
* any number of transitions `source,symbol,destination`, where an empty symbol is epsilon,
* `done`, in upper or lower case letters,
* the name of the start state, or a blank line if there is none,
* the names of the accepting states, separated by commas.

All names are trimmed. Lines whose first character is `#` are comments and skipped everywhere, and
blank lines are skipped among the transitions only, since the alphabet and the accepting states may
be empty. If the last line is missing, no state accepts. Whatever follows it is not read.

Lines are read one after the other, and one that is not text is an error when it is reached, be it
a comment or not.
-/

namespace FiniteAutomata

/-- A trimmed line with its number in the input, counted from 1, or the place of a line that is not
text. -/
structure Line where
  number : Nat
  text? : Option String
deriving DecidableEq

/-- Whether a line is a comment. -/
def Line.isComment (line : Line) : Bool :=
  match line.text? with
  | some text => text.toList.head? == some '#'
  | none => false

/-- The numbered and trimmed lines without the comments. -/
def Line.significant (lines : List (Option String)) : List Line :=
  (lines.zipIdx.map fun (text?, n) => (⟨n + 1, text?.map Text.trim⟩ : Line)).filter
    (!·.isComment)

namespace Definition

/-- The trimmed names between the commas of a line. -/
def fields (line : String) : List String := (Text.splitAt ',' line).map Text.trim

/-- The names on a line that lists them, of which a blank line has none. -/
def nameList (line : String) : List String := if line.isEmpty then [] else fields line

/-- Whether a line ends the transitions. -/
def isDone (line : String) : Bool := line.toLower == "done"

/-- The text of the next line, which starts the given part, and the lines after it. -/
def readLine (part : Section) : List Line → Except InputError (String × List Line)
  | [] => .error (.truncated part)
  | ⟨_, none⟩ :: _ => .error (.unreadable .notText)
  | ⟨_, some text⟩ :: rest => .ok (text, rest)

/-- The transitions up to the line that ends them, and the lines after it. -/
def readTransitions : List Line → Except InputError (List NamedTransition × List Line)
  | [] => .error (.truncated .transitions)
  | ⟨_, none⟩ :: _ => .error (.unreadable .notText)
  | ⟨number, some text⟩ :: rest =>
    if isDone text then .ok ([], rest)
    else if text.isEmpty then readTransitions rest
    else match fields text with
      | [source, label, target] => do
        let (ts, rest) ← readTransitions rest
        return (⟨source, label, target⟩ :: ts, rest)
      | _ => .error (.malformed number)

/-- Everything before the accepting states, and the lines after it. -/
def readHead (lines : List Line) : Except InputError (Definition × List Line) := do
  let (states, lines) ← readLine .states lines
  let (symbols, lines) ← readLine .alphabet lines
  let (transitions, lines) ← readTransitions lines
  let (start, lines) ← readLine .startState lines
  return ({
    states := nameList states
    symbols := nameList symbols
    transitions
    start? := if start.isEmpty then none else some start
    accepting := [] }, lines)

/-- The names of the accepting states, none if their line is missing. -/
def readAccepting : List Line → Except InputError (List String)
  | [] => .ok []
  | ⟨_, none⟩ :: _ => .error (.unreadable .notText)
  | ⟨_, some text⟩ :: _ => .ok (nameList text)

/-- The definition written on the given lines. -/
def readLines (lines : List (Option String)) : Except InputError Definition := do
  let (head, rest) ← readHead (Line.significant lines)
  return { head with accepting := ← readAccepting rest }

/-- The definition written in a text. -/
def ofText (text : String) : Except InputError Definition := readLines ((Text.lines text).map some)

/-- The definition written in some bytes. -/
def ofBytes (bytes : List UInt8) : Except InputError Definition :=
  readLines (Text.linesOfBytes bytes)

/-- The automaton that a definition read describes. -/
def buildRead (d : Except InputError Definition) : Except InputError Nfa := do
  (← d).build.mapError .rejected

end Definition

/-- The automaton whose definition is written in a text. -/
def Nfa.ofText (text : String) : Except InputError Nfa :=
  Definition.buildRead (Definition.ofText text)

/-- The automaton whose definition is written in some bytes. -/
def Nfa.ofBytes (bytes : List UInt8) : Except InputError Nfa :=
  Definition.buildRead (Definition.ofBytes bytes)

end FiniteAutomata
