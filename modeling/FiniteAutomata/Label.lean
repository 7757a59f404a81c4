import FiniteAutomata.Index

/-!
# Transition labels and reserved names

A transition of a nondeterministic automaton reads a symbol or nothing. Reading nothing is a case
of its own rather than a symbol, so an alphabet never contains it. Labels are ordered with
`epsilon` first and the symbols after it by their ids.

Three texts have a meaning of their own and cannot name a state or a symbol: the empty text and
`ε` both denote the empty word where a transition label is expected, and `Trap` is the name under
which the sink of a deterministic automaton is shown.
-/

namespace FiniteAutomata

/-- What a transition reads. -/
inductive Label
  | epsilon
  | symbol (a : Symbol)
deriving DecidableEq

namespace Label

instance : Inhabited Label := ⟨epsilon⟩

/-- Whether the label is the empty word. -/
def isEpsilon : Label → Bool
  | epsilon => true
  | symbol _ => false

/-- The symbol read, if one is read. -/
def symbol? : Label → Option Symbol
  | epsilon => none
  | symbol a => some a

/-- The place of a label among all labels. -/
def rank : Label → Nat
  | epsilon => 0
  | symbol a => a.toNat + 1

theorem rank_inj {l m : Label} (h : l.rank = m.rank) : l = m := by
  cases l <;> cases m <;> simp_all [rank]

instance : Ord Label := ⟨compareOn rank⟩

instance : Std.TransOrd Label := inferInstanceAs (Std.TransCmp (compareOn rank))

instance : Std.LawfulEqOrd Label where
  eq_of_compare h := rank_inj (Std.LawfulEqOrd.eq_of_compare (α := Nat) h)

theorem compare_eq_lt {l m : Label} : compare l m = .lt ↔ l.rank < m.rank := Nat.compare_eq_lt

end Label

/-! ## Reserved names -/

/-- The written form of the empty word. -/
def epsilonName : String := "ε"

/-- The name under which the sink is shown. -/
def sinkName : String := "Trap"

/-- Whether a label text denotes the empty word. -/
def denotesEpsilon (label : String) : Bool := label == "" || label == epsilonName

/-- Whether a name is unavailable for states and symbols. -/
def isReserved (name : String) : Bool := denotesEpsilon name || name == sinkName

theorem denotesEpsilon_iff {label : String} :
    denotesEpsilon label = true ↔ label = "" ∨ label = epsilonName := by
  simp [denotesEpsilon]

theorem isReserved_iff {name : String} :
    isReserved name = true ↔ name = "" ∨ name = epsilonName ∨ name = sinkName := by
  simp [isReserved, denotesEpsilon, or_assoc]

end FiniteAutomata
