/-!
# Arguments of the command line

The program takes these options, each at most once and nothing else:

* `-i FILE`, `--input FILE`: the file to read, standard input if absent,
* `-f WHAT`, `--format WHAT`: one of `all`, `table`, `summary`, `dot`; `all` if absent,
* `--ansi`: highlight accepting states in tables,
* `-v`, `--verbosity`, with `=info`, `=debug` or `=trace` after it or nothing,
* `-h`, `--help`.

A value can follow in the next argument or after `=`, and after a short option directly as well,
except that the verbosity is taken after `=` only. Short options can share an argument. An
argument that begins with `-` and is longer is never the value of the one before it.

Arguments are cut into `Item`s (`items`), which are taken one after the other (`Request.ofItems`):
the first fault or request for help decides, whatever comes later.
-/

namespace FiniteAutomata.CommandLine

/-- What to print. -/
inductive Format
  | all
  | table
  | summary
  | dot
deriving DecidableEq

/-- The format of a name. -/
def Format.ofName? : String → Option Format
  | "all" => some .all
  | "table" => some .table
  | "summary" => some .summary
  | "dot" => some .dot
  | _ => none

/-- How much to log. -/
inductive Verbosity
  | info
  | debug
  | trace
deriving DecidableEq

/-- The verbosity of a name. -/
def Verbosity.ofName? : String → Option Verbosity
  | "info" => some .info
  | "debug" => some .debug
  | "trace" => some .trace
  | _ => none

/-- An option as it is given. -/
inductive Item
  | input (path : String)
  | format (name : String)
  | verbosity (name : String)
  | ansi
  | help
  /-- Something that is no option, or an option without a value it needs. -/
  | invalid
deriving DecidableEq

/-- An option that needs a value. -/
inductive Valued
  | input
  | format
deriving DecidableEq

/-- The option with its value. -/
def Valued.item : Valued → String → Item
  | input => .input
  | format => .format

/-- The options in one argument, and the last of them if its value is still to come. -/
structure Piece where
  items : List Item
  awaiting : Option Valued

/-- The argument gives one option. -/
def Piece.one (item : Item) : Piece := ⟨[item], none⟩

/-- An option that needs a value, which follows directly or after `=` unless it is still to come. -/
def Piece.valued (option : Valued) : List Char → Piece
  | [] => ⟨[], some option⟩
  | '=' :: value => .one (option.item (.ofList value))
  | value => .one (option.item (.ofList value))

/-- The options of an argument with a single dash. -/
def shortOptions : List Char → Piece
  | [] => ⟨[], none⟩
  | 'h' :: _ => .one .help
  | 'v' :: '=' :: name => .one (.verbosity (.ofList name))
  | 'v' :: rest =>
    let ⟨items, awaiting⟩ := shortOptions rest
    ⟨.verbosity "info" :: items, awaiting⟩
  | 'f' :: rest => .valued .format rest
  | 'i' :: rest => .valued .input rest
  | _ :: _ => .one .invalid

/-- The option of an argument with two dashes, given its name and the value after `=`. -/
def longOption (name : String) (value? : Option String) : Piece :=
  match name, value? with
  | "input", some value => .one (.input value)
  | "input", none => ⟨[], some .input⟩
  | "format", some value => .one (.format value)
  | "format", none => ⟨[], some .format⟩
  | "verbosity", value? => .one (.verbosity (value?.getD "info"))
  | "ansi", none => .one .ansi
  | "help", none => .one .help
  | _, _ => .one .invalid

/-- The options in one argument. -/
def Piece.ofArgument (arg : String) : Piece :=
  match arg.toList with
  | '-' :: '-' :: rest =>
    let (name, value) := rest.span (· != '=')
    longOption (.ofList name) (value.tail?.map String.ofList)
  | '-' :: c :: rest => shortOptions (c :: rest)
  | _ => .one .invalid

/-- Whether an argument can be the value of the one before it. -/
def isValue (arg : String) : Bool :=
  match arg.toList with
  | '-' :: _ :: _ => false
  | _ => true

/-- The options in the arguments, up to the first that is invalid or beyond. The argument `--` ends
the options, and nothing can follow it. -/
def items : List String → List Item
  | [] => []
  | arg :: rest =>
    if arg = "--" then if rest.isEmpty then [] else [.invalid]
    else match Piece.ofArgument arg with
      | ⟨found, none⟩ => found ++ items rest
      | ⟨found, some option⟩ =>
        found ++ match rest with
          | [] => [.invalid]
          | value :: rest =>
            if isValue value then option.item value :: items rest else [.invalid]

/-- The options given so far. -/
structure Options where
  input? : Option String
  format? : Option Format
  verbosity? : Option Verbosity
  ansi : Bool
deriving DecidableEq

/-- The options before any is given. -/
def Options.none : Options := ⟨.none, .none, .none, false⟩

/-- What to print. -/
def Options.format (o : Options) : Format := o.format?.getD .all

/-- What the program is asked to do. -/
inductive Request
  | run (options : Options)
  | help
deriving DecidableEq

/-- Takes the options one after the other. Nothing is requested if one is invalid, has a value that
it does not take, or is given again. -/
def Request.ofItems (o : Options) : List Item → Option Request
  | [] => some (.run o)
  | .help :: _ => some .help
  | .invalid :: _ => none
  | .ansi :: rest => if o.ansi then none else ofItems { o with ansi := true } rest
  | .input path :: rest =>
    if o.input?.isSome then none else ofItems { o with input? := some path } rest
  | .format name :: rest =>
    match Format.ofName? name with
    | some f => if o.format?.isSome then none else ofItems { o with format? := some f } rest
    | none => none
  | .verbosity name :: rest =>
    match Verbosity.ofName? name with
    | some v =>
      if o.verbosity?.isSome then none else ofItems { o with verbosity? := some v } rest
    | none => none

/-- What the arguments request, if they are in order. -/
def Request.ofArguments (args : List String) : Option Request := ofItems .none (items args)

end FiniteAutomata.CommandLine
