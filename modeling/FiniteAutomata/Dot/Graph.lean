import FiniteAutomata.Text.Basic

/-!
# Graphs in the DOT language

A `Graph` is what is drawn of an automaton: nodes with attributes, labelled edges, and an initial
node that an invisible node `init` points at. It is written as one statement a line between the
opening line and the closing brace; layout is left to the reader of the text.

Texts are put between quotes. Inside a quoted string a backslash takes the next character literally,
and a quote that is not taken literally ends the string. `escape` puts a backslash before each
backslash and each quote, and `scan` reads a quoted string back.
-/

namespace FiniteAutomata.Dot

/-! ## Quoted strings -/

/-- Puts a backslash before each occurrence of a character. -/
def protect (c : Char) (cs : List Char) : List Char :=
  cs.flatMap fun x => if x = c then ['\\', x] else [x]

/-- A text as it stands between quotes: backslashes are protected first, then quotes. -/
def escapeChars (cs : List Char) : List Char := protect '"' (protect '\\' cs)

/-- A text as it stands between quotes. -/
def escape (text : String) : String := .ofList (escapeChars text.toList)

/-- Reads up to the quote that ends a string. Gives what the string means and what follows it, or
nothing if no quote ends it. -/
def scan : List Char → Option (List Char × List Char)
  | [] => none
  | '"' :: rest => some ([], rest)
  | '\\' :: c :: rest => (scan rest).map fun (meaning, rest) => (c :: meaning, rest)
  | '\\' :: [] => none
  | c :: rest => (scan rest).map fun (meaning, rest) => (c :: meaning, rest)

/-! ## Graphs -/

/-- A property of a node or an edge. -/
inductive Attribute
  /-- The text shown, which may hold any characters. -/
  | label (text : String)
  /-- The shape of a node. -/
  | shape (name : String)
  /-- The colour of a node. -/
  | color (name : String)
deriving DecidableEq

/-- A value between quotes. -/
def quoted (value : String) : String := "\"" ++ value ++ "\""

/-- The written form of an attribute. -/
def Attribute.render : Attribute → String
  | label text => "label=" ++ quoted (escape text)
  | shape name => "shape=" ++ quoted name
  | color name => "color=" ++ quoted name

/-- A node, by an identifier of its own. -/
structure Node where
  ident : String
  attributes : List Attribute
deriving DecidableEq

/-- An edge between the nodes of two identifiers. -/
structure Edge where
  source : String
  label : String
  target : String
deriving DecidableEq

/-- A drawn automaton. -/
structure Graph where
  name? : Option String
  nodes : List Node
  initial : String
  edges : List Edge
deriving DecidableEq

/-- A statement about the items in brackets. -/
def annotated (subject : String) (attributes : List Attribute) : String :=
  subject ++ " " ++ Text.bracketed (attributes.map Attribute.render)

/-- The statement that declares a node. -/
def Node.statement (node : Node) : String := annotated node.ident node.attributes

/-- The arrow from one node to another. -/
def arrow (source target : String) : String := source ++ " -> " ++ target

/-- The statement that declares an edge. -/
def Edge.statement (edge : Edge) : String :=
  annotated (arrow edge.source edge.target) [.label edge.label]

/-- The shape and colour of the node of a state: accepting states are double circles, the initial
state is red, and the other accepting states are green. -/
def stateAttributes (label : String) (initial accepting : Bool) : List Attribute :=
  [.label label, .shape (if accepting then "doublecircle" else "circle"),
    .color (if initial then "red" else if accepting then "green" else "black")]

namespace Graph

/-- The statements before those of the nodes. -/
def headerStatements : List String := ["rankdir=LR", "init [label=\"\", shape=none]"]

/-- The line that opens the graph, which is named `A` unless it has a name. -/
def opening (g : Graph) : String := "digraph " ++ g.name?.getD "A" ++ " \x7b"

/-- The lines of the written graph. -/
def lines (g : Graph) : List String :=
  [g.opening] ++ headerStatements ++ g.nodes.map Node.statement ++ [arrow "init" g.initial]
    ++ g.edges.map Edge.statement ++ ["\x7d"]

/-- The written graph. -/
def render (g : Graph) : String := "\n".intercalate g.lines

end Graph

end FiniteAutomata.Dot
