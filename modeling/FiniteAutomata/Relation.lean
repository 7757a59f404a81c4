import Std.Data.ExtTreeMap
import FiniteAutomata.Label
import FiniteAutomata.StateSet

/-!
# Transition relations

A `Relation` maps a state and a label to the set of states reachable by that one move. Only
non-empty sets are stored, so two relations are equal exactly when they hold the same transitions
(`Relation.ext_holds`), and a look-up that finds nothing means that there is no move.

* `holds_insert`: inserting a transition adds that one and keeps the others.
* `mem_transitions`: the list of transitions has exactly those that hold; it is ordered by source,
  then label, then target.
-/

namespace FiniteAutomata

/-! ## Order of pairs -/

section Pairs

variable {α β : Type} [Ord α] [Ord β]

/-- Compares pairs by first and then by second part. -/
def comparePair : α × β → α × β → Ordering := compareLex (compareOn Prod.fst) (compareOn Prod.snd)

instance [Std.TransOrd α] [Std.TransOrd β] : Std.TransCmp (comparePair (α := α) (β := β)) :=
  inferInstanceAs (Std.TransCmp (compareLex (compareOn Prod.fst) (compareOn Prod.snd)))

instance [Std.LawfulEqOrd α] [Std.LawfulEqOrd β] :
    Std.LawfulEqCmp (comparePair (α := α) (β := β)) where
  compare_self := by simp [comparePair, compareLex, compareOn]
  eq_of_compare {k l} h := by
    have h : k.1 = l.1 ∧ k.2 = l.2 := by
      simpa only [comparePair, compareLex, compareOn, Ordering.then_eq_eq,
        Std.LawfulEqOrd.compare_eq_iff_eq] using h
    exact Prod.ext h.1 h.2

theorem comparePair_eq_lt {k l : α × β} [Std.LawfulEqOrd α] :
    comparePair k l = .lt ↔
      compare k.1 l.1 = .lt ∨ k.1 = l.1 ∧ compare k.2 l.2 = .lt := by
  simp only [comparePair, compareLex, compareOn, Ordering.then_eq_lt,
    Std.LawfulEqOrd.compare_eq_iff_eq]

end Pairs

/-! ## Relations -/

/-- A single move of a nondeterministic automaton. -/
structure Transition where
  source : StateId
  label : Label
  target : StateId
deriving DecidableEq

/-- The moves of a nondeterministic automaton, by source and label. -/
structure Relation where
  entries : Std.ExtTreeMap (StateId × Label) StateSet comparePair
  isEmpty_eq_false : ∀ (k : StateId × Label) (S : StateSet),
    entries[k]? = some S → S.isEmpty = false

namespace Relation

/-- The set of targets of `q` on `l`, if there are any. -/
def targets? (R : Relation) (q : StateId) (l : Label) : Option StateSet := R.entries[(q, l)]?

/-- The targets of `q` on `l` in ascending order. -/
def successors (R : Relation) (q : StateId) (l : Label) : List StateId :=
  match R.targets? q l with
  | some S => S.toList
  | none => []

/-- The relation has this transition. -/
def Holds (R : Relation) (t : Transition) : Prop := t.target ∈ R.successors t.source t.label

instance (R : Relation) (t : Transition) : Decidable (R.Holds t) :=
  inferInstanceAs (Decidable (t.target ∈ R.successors t.source t.label))

/-- All transitions, ordered by source, then label, then target. -/
def transitions (R : Relation) : List Transition :=
  R.entries.toList.flatMap fun e => e.2.toList.map fun p => ⟨e.1.1, e.1.2, p⟩

/-- The relation without transitions. -/
def empty : Relation := ⟨∅, by simp⟩

instance : EmptyCollection Relation := ⟨empty⟩

instance : Inhabited Relation := ⟨empty⟩

/-- The relation with the transition `t` added. -/
def insert (R : Relation) (t : Transition) : Relation where
  entries := R.entries.alter (t.source, t.label) fun S => some ((S.getD ∅).insert t.target)
  isEmpty_eq_false k S h := by
    rw [Std.ExtTreeMap.getElem?_alter] at h
    split at h
    · obtain rfl := Option.some.inj h
      rw [Bool.eq_false_iff, ne_eq, StateSet.isEmpty_iff]
      exact fun hS => hS t.target (StateSet.mem_insert.2 (.inl rfl))
    · exact R.isEmpty_eq_false k S h

/-- The relation of the given transitions. -/
def ofList (ts : List Transition) : Relation := ts.foldl insert empty

/-! ## What the operations do to the transitions that hold -/

theorem mem_successors {R : Relation} {q : StateId} {l : Label} {p : StateId} :
    p ∈ R.successors q l ↔ R.Holds ⟨q, l, p⟩ := Iff.rfl

theorem targets?_eq_none_iff {R : Relation} {q : StateId} {l : Label} :
    R.targets? q l = none ↔ ∀ p, ¬ R.Holds ⟨q, l, p⟩ := by
  simp only [← mem_successors, successors]
  cases h : R.targets? q l with
  | none => simp
  | some S =>
    have hS := R.isEmpty_eq_false (q, l) S h
    rw [Bool.eq_false_iff, ne_eq, StateSet.isEmpty_iff] at hS
    simpa using hS

theorem holds_iff_targets? {R : Relation} {t : Transition} :
    R.Holds t ↔ ∃ S, R.targets? t.source t.label = some S ∧ t.target ∈ S := by
  rw [Holds, successors]
  cases R.targets? t.source t.label <;> simp

@[simp] theorem not_holds_empty (t : Transition) : ¬ empty.Holds t := by
  simp [Holds, successors, targets?, empty]

@[simp] theorem holds_insert {R : Relation} {t u : Transition} :
    (R.insert t).Holds u ↔ u = t ∨ R.Holds u := by
  obtain ⟨q, l, p⟩ := t
  obtain ⟨q', l', p'⟩ := u
  rw [holds_iff_targets?, holds_iff_targets?]
  simp only [targets?, insert, Std.ExtTreeMap.getElem?_alter,
    Std.LawfulEqCmp.compare_eq_iff_eq, Prod.mk.injEq, Transition.mk.injEq]
  by_cases h : q = q' ∧ l = l'
  · obtain ⟨rfl, rfl⟩ := h
    simp only [and_self, if_true, Option.some.injEq, exists_eq_left', StateSet.mem_insert,
      true_and]
    cases R.entries[(q, l)]? with
    | none => exact or_congr Iff.rfl ⟨fun h => absurd h (StateSet.not_mem_empty p'), by simp⟩
    | some S => simp
  · rw [if_neg h]
    constructor
    · exact .inr
    · rintro (⟨rfl, rfl, rfl⟩ | h')
      · exact absurd ⟨rfl, rfl⟩ h
      · exact h'

theorem holds_foldl_insert {R : Relation} {ts : List Transition} {u : Transition} :
    (ts.foldl insert R).Holds u ↔ R.Holds u ∨ u ∈ ts := by
  induction ts generalizing R with
  | nil => simp
  | cons t ts ih =>
    rw [List.foldl_cons, ih, holds_insert, List.mem_cons]
    constructor
    · rintro ((h | h) | h) <;> simp [h]
    · rintro (h | h | h) <;> simp [h]

@[simp] theorem holds_ofList {ts : List Transition} {u : Transition} :
    (ofList ts).Holds u ↔ u ∈ ts := by
  simp [ofList, holds_foldl_insert]

theorem mem_transitions {R : Relation} {t : Transition} : t ∈ R.transitions ↔ R.Holds t := by
  obtain ⟨q, l, p⟩ := t
  simp only [transitions, List.mem_flatMap, List.mem_map, Transition.mk.injEq,
    holds_iff_targets?, targets?]
  constructor
  · rintro ⟨⟨⟨q', l'⟩, S⟩, he, p', hp, rfl, rfl, rfl⟩
    exact ⟨S, Std.ExtTreeMap.mem_toList_iff_getElem?_eq_some.1 he, hp⟩
  · rintro ⟨S, hS, hp⟩
    exact ⟨((q, l), S), Std.ExtTreeMap.mem_toList_iff_getElem?_eq_some.2 hS, p, hp, rfl, rfl, rfl⟩

/-! ## Equality -/

theorem ext_entries {R R' : Relation} (h : R.entries = R'.entries) : R = R' := by
  cases R; cases R'
  subst h
  rfl

/-- The targets on a label are determined by the transitions that hold. -/
theorem targets?_congr {R R' : Relation} {q : StateId} {l : Label}
    (h : ∀ p, R.Holds ⟨q, l, p⟩ ↔ R'.Holds ⟨q, l, p⟩) : R.targets? q l = R'.targets? q l := by
  cases hR : R.targets? q l with
  | none =>
    rw [targets?_eq_none_iff] at hR
    exact (targets?_eq_none_iff.2 fun p hp => hR p ((h p).2 hp)).symm
  | some S =>
    cases hR' : R'.targets? q l with
    | none =>
      rw [targets?_eq_none_iff.2 fun p hp => targets?_eq_none_iff.1 hR' p ((h p).1 hp)] at hR
      exact hR.symm
    | some S' =>
      refine congrArg some (StateSet.ext fun p => ?_)
      simpa [holds_iff_targets?, hR, hR'] using h p

/-- A relation is determined by the transitions that hold. -/
theorem ext_holds {R R' : Relation} (h : ∀ t, R.Holds t ↔ R'.Holds t) : R = R' := by
  refine ext_entries (Std.ExtTreeMap.ext_getElem? fun k => ?_)
  obtain ⟨q, l⟩ := k
  exact targets?_congr fun p => h ⟨q, l, p⟩

instance : DecidableEq Relation := fun R R' =>
  decidable_of_iff (R.entries.toList = R'.entries.toList)
    ⟨fun h => ext_entries (Std.ExtTreeMap.toList_inj.1 h), fun h => h ▸ rfl⟩

end Relation

end FiniteAutomata
