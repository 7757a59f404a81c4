import FiniteAutomata.CommandLine.Report

/-!
# The program

Reads standard input or a file, and prints what `CommandLine` makes of it.
-/

namespace FiniteAutomata.CommandLine

/-- All that is left in a stream. -/
partial def readToEnd (stream : IO.FS.Stream) (bytes : ByteArray) : IO ByteArray := do
  let more ← stream.read 65536
  if more.isEmpty then return bytes else readToEnd stream (bytes ++ more)

/-- The number of a system error, which some calls give negated. -/
def systemCode (code : UInt32) : UInt32 := if code < 0x80000000 then code else 0 - code

/-- Why the system cannot read a file. -/
def faultOf (e : IO.Error) : ReadFault :=
  match e with
  | .noFileOrDirectory .. => .noSuchFile
  | .inappropriateType _ code _ => if systemCode code == 21 then .isDirectory else .notDirectory
  | .invalidArgument _ code _ =>
    if systemCode code == 36 then .nameTooLong else .other (toString e)
  | _ => .other (toString e)

/-- The automaton in a file, or in standard input. -/
def readAutomaton (path? : Option String) : IO (Except InputError Nfa) := do
  try
    let bytes ← match path? with
      | some path => IO.FS.readBinFile path
      | none => readToEnd (← IO.getStdin) .empty
    return Nfa.ofBytes bytes.toList
  catch e => return .error (.unreadable (faultOf e))

/-- Runs the program on its arguments and gives its exit code. -/
def runProgram (args : List String) : IO UInt32 := do
  let outcome ← Outcome.ofArguments readAutomaton args
  IO.print outcome.output
  IO.eprint outcome.complaint
  return outcome.code.toUInt32

end FiniteAutomata.CommandLine

/-- Runs the program. -/
def main (args : List String) : IO UInt32 := FiniteAutomata.CommandLine.runProgram args
