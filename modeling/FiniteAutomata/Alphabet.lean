import FiniteAutomata.Label
import FiniteAutomata.NameTable
import FiniteAutomata.Text.Basic

/-!
# Alphabets

An alphabet is a table of symbol names. The order of the names is the order in which successors
are explored and in which the columns of a transition table come.
-/

namespace FiniteAutomata

/-- The named symbols of an automaton. -/
abbrev Alphabet := NameTable .symbol

namespace Alphabet

/-- The name of a symbol of the alphabet. -/
def name (A : Alphabet) (a : Symbol) : Except AccessError String :=
  match A.name? a with
  | some name => .ok name
  | none => .error (.foreignSymbol a)

/-- The text of a label, where the empty word is shown as `ε`. -/
def labelName (A : Alphabet) : Label → Except AccessError String
  | .epsilon => .ok epsilonName
  | .symbol a => A.name a

/-- The text of a label of an automaton over this alphabet. -/
def labelText (A : Alphabet) : Label → String
  | .epsilon => epsilonName
  | .symbol a => A.text a

/-- The label that a text denotes: epsilon for either of its spellings, or the symbol of that
name. -/
def label? (A : Alphabet) (text : String) : Option Label :=
  if denotesEpsilon text then some .epsilon else (A.find? text).map .symbol

/-- Whether the label can occur in an automaton over this alphabet. -/
def HasLabel (A : Alphabet) : Label → Prop
  | .epsilon => True
  | .symbol a => A.Has a

/-- The displayed form, the names in brackets: `[a, b]`. -/
protected def toString (A : Alphabet) : String := Text.bracketed A.names

theorem hasLabel_of_label? {A : Alphabet} {text : String} {l : Label}
    (h : A.label? text = some l) : A.HasLabel l := by
  rw [label?] at h
  split at h
  · obtain rfl := Option.some.inj h
    trivial
  · obtain ⟨a, ha, rfl⟩ := Option.map_eq_some_iff.1 h
    exact NameTable.has_of_find? ha

end Alphabet

end FiniteAutomata
