import FiniteAutomata.CommandLine.Arguments
import FiniteAutomata.Definition.Read
import FiniteAutomata.Dfa.Basic
import FiniteAutomata.Dot.Drawing
import FiniteAutomata.SubsetConstruction
import FiniteAutomata.TransitionTable

/-!
# What the program prints

The program reads a definition, determinizes the automaton and prints tables of both, a summary of
the result, or drawings of both. A definition that cannot be read is reported on the error stream,
and so is how to call the program.
-/

namespace FiniteAutomata.CommandLine

/-- What a run leaves behind. -/
structure Outcome where
  code : Nat
  output : String
  complaint : String
deriving DecidableEq

/-- The tables of an automaton and of its determinization. -/
def tables (N : Nfa) (D : Dfa) (highlighted : Bool) : List String :=
  ["NFA transition table:", (N.table highlighted).render,
    "DFA transition table:", (D.table highlighted).render]

/-- The parts of the output for a format, each ended by a line feed when printed. -/
def reportParts (o : Options) (N : Nfa) : List String :=
  let D := N.determinize
  match o.format with
  | .all => tables N D o.ansi ++ ["DFA:", D.summary]
  | .table => tables N D o.ansi
  | .summary => ["DFA:", D.summary]
  | .dot => [N.toGraph.render, D.toGraph.render]

/-- The output for an automaton. -/
def report (o : Options) (N : Nfa) : String := String.join ((reportParts o N).map (· ++ "\n"))

/-- The outcome for an automaton or the reason why there is none. -/
def Outcome.ofInput (o : Options) : Except InputError Nfa → Outcome
  | .ok N => ⟨0, report o N, ""⟩
  | .error e => ⟨1, "", "error: " ++ e.message ++ "\n"⟩

/-- How the program is called. -/
def usage : String :=
  "usage: [-i FILE] [-f all|table|summary|dot] [--ansi] [-v[=info|debug|trace]]\n"

/-- The outcome of a call, where `read` reads the file of a name, or standard input if there is no
name. -/
def Outcome.ofArguments {m : Type → Type} [Monad m]
    (read : Option String → m (Except InputError Nfa)) (args : List String) : m Outcome :=
  match Request.ofArguments args with
  | some (.run o) => do return .ofInput o (← read o.input?)
  | some .help => return ⟨0, "", usage⟩
  | none => return ⟨2, "", usage⟩

end FiniteAutomata.CommandLine
