import FiniteAutomata.Definition.Read

/-!
# Writing definitions

`Definition.write` gives a definition the form that the reader expects. A definition is `Writable`
if that form shows all of it: no name is cut by a comma or a line feed, changed by trimming, taken
for a comment, or lost because an empty line has another meaning.
-/

namespace FiniteAutomata.Definition

/-- The names on one line. -/
def writeNames (names : List String) : String := ",".intercalate names

/-- A transition on one line. -/
def writeTransition (t : NamedTransition) : String := writeNames [t.source, t.label, t.target]

/-- The lines of a written definition. -/
def writeLines (d : Definition) : List String :=
  [writeNames d.states, writeNames d.symbols] ++ d.transitions.map writeTransition
    ++ ["done", d.start?.getD "", writeNames d.accepting]

/-- The written form of a definition, each line ended by a line feed. -/
def write (d : Definition) : String := String.join (d.writeLines.map (· ++ "\n"))

/-- A name that stays on its line and that trimming leaves as it is. -/
def LineName (name : String) : Prop := '\n' ∉ name.toList ∧ Text.trim name = name

instance (name : String) : Decidable (LineName name) :=
  inferInstanceAs (Decidable (_ ∧ _))

/-- A name that can also stand among others on a line. -/
def FieldName (name : String) : Prop := LineName name ∧ ',' ∉ name.toList

instance (name : String) : Decidable (FieldName name) :=
  inferInstanceAs (Decidable (_ ∧ _))

/-- A line that begins with this name is not a comment. -/
def Uncommented (name : String) : Prop := name.toList.head? ≠ some '#'

instance (name : String) : Decidable (Uncommented name) :=
  inferInstanceAs (Decidable (_ ≠ _))

/-- A list of names that a line can show: not just one empty name, and not a comment. -/
structure WritableNames (names : List String) : Prop where
  fields : ∀ name ∈ names, FieldName name
  ne_singleton_empty : names ≠ [""]
  uncommented : ∀ name ∈ names.head?, Uncommented name

instance (names : List String) : Decidable (WritableNames names) :=
  decidable_of_iff ((∀ name ∈ names, FieldName name) ∧ names ≠ [""] ∧
      ∀ name ∈ names.head?, Uncommented name)
    ⟨fun h => ⟨h.1, h.2.1, h.2.2⟩, fun h => ⟨h.1, h.2, h.3⟩⟩

/-- A transition that a line can show. -/
structure WritableTransition (t : NamedTransition) : Prop where
  source : FieldName t.source
  label : FieldName t.label
  target : FieldName t.target
  uncommented : Uncommented t.source

instance (t : NamedTransition) : Decidable (WritableTransition t) :=
  decidable_of_iff (FieldName t.source ∧ FieldName t.label ∧ FieldName t.target ∧
      Uncommented t.source)
    ⟨fun h => ⟨h.1, h.2.1, h.2.2.1, h.2.2.2⟩, fun h => ⟨h.1, h.2, h.3, h.4⟩⟩

/-- A definition of which the written form shows all. -/
structure Writable (d : Definition) : Prop where
  states : WritableNames d.states
  symbols : WritableNames d.symbols
  transitions : ∀ t ∈ d.transitions, WritableTransition t
  start : ∀ name ∈ d.start?, LineName name ∧ name ≠ "" ∧ Uncommented name
  accepting : WritableNames d.accepting

instance (d : Definition) : Decidable d.Writable :=
  decidable_of_iff (WritableNames d.states ∧ WritableNames d.symbols ∧
      (∀ t ∈ d.transitions, WritableTransition t) ∧
      (∀ name ∈ d.start?, LineName name ∧ name ≠ "" ∧ Uncommented name) ∧
      WritableNames d.accepting)
    ⟨fun h => ⟨h.1, h.2.1, h.2.2.1, h.2.2.2.1, h.2.2.2.2⟩,
      fun h => ⟨h.1, h.2, h.3, h.4, h.5⟩⟩

end FiniteAutomata.Definition
