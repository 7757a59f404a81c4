import Std.Data.ExtTreeSet
import FiniteAutomata.Index
import FiniteAutomata.Text.Basic

/-!
# Sets of states

A `StateSet` lists its members in strictly ascending order. That form is canonical: two sets are
equal exactly when they have the same members (`StateSet.ext`), whatever history of insertions
and unions led to them, so a set can serve as the key under which a state of a deterministic
automaton is looked up.

Each operation is described by what it does to membership: `mem_insert`, `mem_union`,
`mem_ofList`, `isSubset_iff`, `isDisjoint_iff`.

Sets are compared lexicographically on their ascending members, so `{}` comes first and
`{q0, q5}` before `{q1}`. The order is linear and two sets compare equal exactly when they are
the same set (the instances `Std.TransOrd` and `Std.LawfulEqOrd`). A set is hashed through
`hashSequence`, its size followed by its members, which depends on the set alone.
-/

namespace FiniteAutomata

/-- States that are marked one by one, in a form that is quick to add to. -/
abbrev Marks := Std.ExtTreeSet StateId

/-- A finite set of states, its members strictly ascending. -/
structure StateSet where
  toList : List StateId
  ascending : toList.Pairwise (· < ·)
deriving DecidableEq

namespace StateSet

/-! ## Membership -/

instance : Membership StateId StateSet := ⟨fun S q => q ∈ S.toList⟩

@[simp] theorem mem_toList {S : StateSet} {q : StateId} : q ∈ S.toList ↔ q ∈ S := Iff.rfl

instance (q : StateId) (S : StateSet) : Decidable (q ∈ S) :=
  inferInstanceAs (Decidable (q ∈ S.toList))

theorem nodup_toList (S : StateSet) : S.toList.Nodup :=
  S.ascending.imp fun {_ _} hlt => fun heq => Nat.lt_irrefl _ (heq ▸ hlt)

/-- Whether `q` is a member. -/
def contains (S : StateSet) (q : StateId) : Bool := decide (q ∈ S)

@[simp] theorem contains_eq_true {S : StateSet} {q : StateId} : S.contains q = true ↔ q ∈ S :=
  decide_eq_true_iff

/-- The number of members. -/
def size (S : StateSet) : Nat := S.toList.length

/-- Whether there are no members. -/
def isEmpty (S : StateSet) : Bool := S.toList.isEmpty

theorem isEmpty_iff {S : StateSet} : S.isEmpty = true ↔ ∀ q, q ∉ S := by
  rw [isEmpty, List.isEmpty_iff, List.eq_nil_iff_forall_not_mem]
  rfl

/-- Ascending lists with the same members are the same list. -/
theorem toList_eq_of_mem {l m : List StateId} (hl : l.Pairwise (· < ·)) (hm : m.Pairwise (· < ·))
    (h : ∀ q, q ∈ l ↔ q ∈ m) : l = m := by
  induction l generalizing m with
  | nil =>
    cases m with
    | nil => rfl
    | cons b m => exact absurd ((h b).2 List.mem_cons_self) List.not_mem_nil
  | cons a l ih =>
    cases m with
    | nil => exact absurd ((h a).1 List.mem_cons_self) List.not_mem_nil
    | cons b m =>
      rw [List.pairwise_cons] at hl hm
      have hab : a = b := by
        rcases List.mem_cons.1 ((h a).1 List.mem_cons_self) with hab | ham
        · exact hab
        · rcases List.mem_cons.1 ((h b).2 List.mem_cons_self) with hba | hbl
          · exact hba.symm
          · exact absurd (Nat.lt_trans (hm.1 a ham) (hl.1 b hbl)) (Nat.lt_irrefl _)
      subst hab
      refine congrArg (a :: ·) (ih hl.2 hm.2 fun q => ?_)
      have hq := h q
      rw [List.mem_cons, List.mem_cons] at hq
      constructor
      · intro hql
        rcases hq.1 (.inr hql) with rfl | hqm
        · exact absurd (hl.1 q hql) (Nat.lt_irrefl _)
        · exact hqm
      · intro hqm
        rcases hq.2 (.inr hqm) with rfl | hql
        · exact absurd (hm.1 q hqm) (Nat.lt_irrefl _)
        · exact hql

/-- A set is determined by its members. -/
@[ext] theorem ext {S T : StateSet} (h : ∀ q, q ∈ S ↔ q ∈ T) : S = T := by
  obtain ⟨l, hl⟩ := S
  obtain ⟨m, hm⟩ := T
  obtain rfl : l = m := toList_eq_of_mem hl hm h
  rfl

/-! ## Insertion -/

/-- Puts `q` at its place in an ascending list, unless it is there already. -/
def insertAscending (q : StateId) : List StateId → List StateId
  | [] => [q]
  | p :: ps =>
    if q < p then q :: p :: ps
    else if p < q then p :: insertAscending q ps
    else p :: ps

theorem mem_insertAscending {q r : StateId} {l : List StateId} :
    r ∈ insertAscending q l ↔ r = q ∨ r ∈ l := by
  induction l with
  | nil => simp [insertAscending]
  | cons p ps ih =>
    rw [insertAscending]
    split
    · simp
    · split
      · simp only [List.mem_cons, ih]
        constructor <;> rintro (h | h | h) <;> simp [h]
      · have hpq : q = p := Index.ext_toNat (Nat.le_antisymm (Nat.not_lt.1 ‹¬ p < q›)
          (Nat.not_lt.1 ‹¬ q < p›))
        simp [hpq]

theorem pairwise_insertAscending {q : StateId} {l : List StateId} (h : l.Pairwise (· < ·)) :
    (insertAscending q l).Pairwise (· < ·) := by
  induction l with
  | nil => simp [insertAscending]
  | cons p ps ih =>
    rw [insertAscending]
    rw [List.pairwise_cons] at h
    split
    · refine List.pairwise_cons.2 ⟨fun r hr => ?_, List.pairwise_cons.2 h⟩
      rcases List.mem_cons.1 hr with rfl | hr
      · assumption
      · exact Nat.lt_trans ‹q < p› (h.1 r hr)
    · split
      · refine List.pairwise_cons.2 ⟨fun r hr => ?_, ih h.2⟩
        rcases mem_insertAscending.1 hr with rfl | hr
        · assumption
        · exact h.1 r hr
      · exact List.pairwise_cons.2 h

/-- The set without members. -/
def empty : StateSet := ⟨[], .nil⟩

instance : EmptyCollection StateSet := ⟨empty⟩

instance : Inhabited StateSet := ⟨empty⟩

/-- The set with `q` added. -/
def insert (S : StateSet) (q : StateId) : StateSet :=
  ⟨insertAscending q S.toList, pairwise_insertAscending S.ascending⟩

/-- Adds `q` and tells whether it is new. -/
def insertNew (S : StateSet) (q : StateId) : StateSet × Bool := (S.insert q, !S.contains q)

/-- The set whose only member is `q`. -/
def singleton (q : StateId) : StateSet := empty.insert q

/-- The set with all of `qs` added. -/
def insertMany (S : StateSet) (qs : List StateId) : StateSet := qs.foldl insert S

/-- The set of the marked states. -/
def ofMarks (marks : Marks) : StateSet where
  toList := marks.toList
  ascending := marks.ordered_toList.imp Index.compare_eq_lt.1

/-- The members as marked states. -/
def toMarks (S : StateSet) : Marks := .ofList S.toList

/-- The set of the members of a list, in whatever order and however often they come. -/
def ofList (qs : List StateId) : StateSet := ofMarks (.ofList qs)

/-- The members of both sets. -/
def union (S T : StateSet) : StateSet := S.insertMany T.toList

/-- Whether every member of `S` is one of `T`. -/
def isSubset (S T : StateSet) : Bool := S.toList.all T.contains

/-- Whether the sets share no member. -/
def isDisjoint (S T : StateSet) : Bool := !S.toList.any T.contains

@[simp] theorem not_mem_empty (q : StateId) : q ∉ empty := List.not_mem_nil

@[simp] theorem mem_insert {S : StateSet} {q r : StateId} : r ∈ S.insert q ↔ r = q ∨ r ∈ S :=
  mem_insertAscending

@[simp] theorem mem_singleton {q r : StateId} : r ∈ singleton q ↔ r = q := by
  simp [singleton]

@[simp] theorem mem_insertMany {S : StateSet} {qs : List StateId} {r : StateId} :
    r ∈ S.insertMany qs ↔ r ∈ S ∨ r ∈ qs := by
  induction qs generalizing S with
  | nil => simp [insertMany]
  | cons q qs ih =>
    rw [insertMany, List.foldl_cons, ← insertMany, ih, mem_insert, List.mem_cons]
    constructor
    · rintro ((h | h) | h) <;> simp [h]
    · rintro (h | h | h) <;> simp [h]

@[simp] theorem mem_ofMarks {marks : Marks} {r : StateId} : r ∈ ofMarks marks ↔ r ∈ marks :=
  Std.ExtTreeSet.mem_toList

@[simp] theorem mem_toMarks {S : StateSet} {r : StateId} : r ∈ S.toMarks ↔ r ∈ S := by
  simp [toMarks, Std.ExtTreeSet.mem_ofList]

@[simp] theorem mem_ofList {qs : List StateId} {r : StateId} : r ∈ ofList qs ↔ r ∈ qs := by
  simp [ofList, Std.ExtTreeSet.mem_ofList]

@[simp] theorem mem_union {S T : StateSet} {r : StateId} : r ∈ S.union T ↔ r ∈ S ∨ r ∈ T := by
  simp [union]

theorem isSubset_iff {S T : StateSet} : S.isSubset T = true ↔ ∀ q, q ∈ S → q ∈ T := by
  simp [isSubset]

theorem isDisjoint_iff {S T : StateSet} : S.isDisjoint T = true ↔ ∀ q, q ∈ S → q ∉ T := by
  simp [isDisjoint, ← Bool.not_eq_true]

/-! ## Order and hashing -/

theorem toList_inj {S T : StateSet} (h : S.toList = T.toList) : S = T :=
  ext fun q => by rw [← mem_toList, h, mem_toList]

instance : Ord StateSet := ⟨compareOn toList⟩

theorem compare_eq {S T : StateSet} : compare S T = compare S.toList T.toList := rfl

instance : Std.TransOrd StateSet := inferInstanceAs (Std.TransCmp (compareOn toList))

instance : Std.LawfulEqOrd StateSet where
  eq_of_compare h := toList_inj (Std.LawfulEqOrd.eq_of_compare (α := List StateId) h)

/-- What a hasher is fed for a set, its size and then its members in ascending order. -/
def hashSequence (S : StateSet) : List Nat := S.size :: S.toList.map Index.toNat

instance : Hashable StateSet := ⟨fun S => hash S.hashSequence⟩

/-! ## Text -/

/-- The displayed form of a set, its ids ascending: `{q0, q3}`. -/
protected def toString (S : StateSet) : String := Text.braced (S.toList.map toString)

instance : ToString StateSet := ⟨StateSet.toString⟩

end StateSet

end FiniteAutomata
