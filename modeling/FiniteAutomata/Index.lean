/-!
# Ids of states and symbols

An automaton names its parts by small numbers handed out densely from zero: the states of a
nondeterministic automaton (`StateId`), the states of a deterministic one (`DfaStateId`) and the
symbols of an alphabet (`Symbol`). The three kinds share one representation, `Index`, tagged by
the `Space` it counts in, so an id of one kind cannot be taken for another.

* `Index.toNat_ofNat`: an id keeps the low 32 bits of the position it is made from.
* `Index.ext_toNat`: an id is determined by its position.
* `compare` on ids is the order of their positions (`Index.compare_eq_lt`), a linear order
  whose only equal ids are the same id (the instances `Std.TransOrd` and `Std.LawfulEqOrd`).

An id is only meaningful for the automaton that handed it out. The queries that insist on an id
of their own answer with an `AccessError` otherwise.
-/

namespace FiniteAutomata

/-- What an id counts. -/
inductive Space
  | state
  | dfaState
  | symbol
deriving DecidableEq

/-- The letter ids of this kind are displayed with. -/
def Space.letter : Space → String
  | .state => "q"
  | .dfaState => "d"
  | .symbol => "s"

/-- A dense position in the space `s`, held in 32 bits. -/
structure Index (s : Space) where
  val : UInt32
deriving DecidableEq

/-- Id of a state of a nondeterministic automaton, in declaration order. -/
abbrev StateId := Index .state

/-- Id of a state of a deterministic automaton, in discovery order. -/
abbrev DfaStateId := Index .dfaState

/-- Id of a symbol of an alphabet, in declaration order. -/
abbrev Symbol := Index .symbol

namespace Index

variable {s : Space}

/-- How many ids a space has. -/
def capacity : Nat := UInt32.size

/-- The id at position `n`, which wraps around past the last id. -/
def ofNat (n : Nat) : Index s := ⟨UInt32.ofNat n⟩

/-- The position an id stands for. -/
def toNat (i : Index s) : Nat := i.val.toNat

instance : Inhabited (Index s) := ⟨ofNat 0⟩

/-- The displayed form of an id, its letter followed by its position: `q0`, `d3`, `s12`. -/
protected def toString (i : Index s) : String := s.letter ++ toString i.toNat

instance : ToString (Index s) := ⟨Index.toString⟩

theorem toNat_lt (i : Index s) : i.toNat < capacity := UInt32.toNat_lt i.val

@[simp] theorem toNat_ofNat (n : Nat) : (ofNat n : Index s).toNat = n % capacity := by
  simp [ofNat, toNat, capacity, UInt32.size]

theorem toNat_ofNat_of_lt {n : Nat} (h : n < capacity) : (ofNat n : Index s).toNat = n := by
  rw [toNat_ofNat, Nat.mod_eq_of_lt h]

theorem ext_toNat {i j : Index s} (h : i.toNat = j.toNat) : i = j := by
  cases i; cases j
  exact congrArg Index.mk (UInt32.toNat_inj.1 h)

@[simp] theorem toNat_inj {i j : Index s} : i.toNat = j.toNat ↔ i = j :=
  ⟨ext_toNat, congrArg toNat⟩

@[simp] theorem ofNat_toNat (i : Index s) : ofNat i.toNat = i :=
  ext_toNat (toNat_ofNat_of_lt i.toNat_lt)

/-! ## Order -/

instance : LT (Index s) := ⟨fun i j => i.toNat < j.toNat⟩

instance : LE (Index s) := ⟨fun i j => i.toNat ≤ j.toNat⟩

instance (i j : Index s) : Decidable (i < j) := inferInstanceAs (Decidable (i.toNat < j.toNat))

instance (i j : Index s) : Decidable (i ≤ j) := inferInstanceAs (Decidable (i.toNat ≤ j.toNat))

theorem lt_iff {i j : Index s} : i < j ↔ i.toNat < j.toNat := Iff.rfl

theorem le_iff {i j : Index s} : i ≤ j ↔ i.toNat ≤ j.toNat := Iff.rfl

instance : Ord (Index s) := ⟨compareOn toNat⟩

instance : Std.TransOrd (Index s) := inferInstanceAs (Std.TransCmp (compareOn toNat))

theorem compare_eq {i j : Index s} : compare i j = compare i.toNat j.toNat := rfl

instance : Std.LawfulEqOrd (Index s) where
  eq_of_compare h := ext_toNat (Std.LawfulEqOrd.eq_of_compare (α := Nat) h)

theorem compare_eq_lt {i j : Index s} : compare i j = .lt ↔ i < j := Nat.compare_eq_lt

end Index

/-! ## Foreign ids -/

/-- Why a query about an id has no answer. -/
inductive AccessError
  /-- The state is not one of the automaton. -/
  | foreignState (q : StateId)
  /-- The symbol is not one of the alphabet. -/
  | foreignSymbol (a : Symbol)
  /-- A sequence of `size` entries has none at `position`. -/
  | outOfBounds (size position : Nat)
deriving DecidableEq

namespace AccessError

/-- The report for the user. -/
def message : AccessError → String
  | foreignState q => toString q ++ " is not a state of this automaton"
  | foreignSymbol a => "symbol " ++ toString a ++ " is not part of the alphabet"
  | outOfBounds size position =>
    "index out of bounds: the len is " ++ toString size ++ " but the index is "
      ++ toString position

end AccessError

/-- The entry of `entries` at the position of an id. -/
def Index.read {s : Space} {α : Type} (i : Index s) (entries : Array α) : Except AccessError α :=
  match entries[i.toNat]? with
  | some entry => .ok entry
  | none => .error (.outOfBounds entries.size i.toNat)

theorem Index.read_eq_ok_iff {s : Space} {α : Type} {i : Index s} {entries : Array α} {x : α} :
    i.read entries = .ok x ↔ entries[i.toNat]? = some x := by
  unfold read
  cases entries[i.toNat]? <;> simp

end FiniteAutomata
