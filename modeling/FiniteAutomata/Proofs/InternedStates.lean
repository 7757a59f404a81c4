import Mathlib.Data.List.Induction
import FiniteAutomata.Proofs.ArenaConsistency

/-!
# Arenas after any calls

An arena that states were interned in one after the other holds each of them once, at the place of
its first occurrence (`Arena.states_internAll`), and all else in it goes with that
(`Arena.Interned`). What a call gives and what it changes depends only on whether its state came
before (`Consistent.intern_of_mem` and `Consistent.intern_of_not_mem`).

That ids are positions holds for up to `Index.capacity` states, which is as many as there are ids.
-/

namespace FiniteAutomata.Arena

variable {A : Arena} {accepting : StateSet} {calls : List DfaState} {s : DfaState} {i : DfaStateId}

/-- The arena after some states have been interned. -/
def internAll (accepting : StateSet) (calls : List DfaState) : Arena :=
  calls.foldl (fun A s => (A.intern accepting s).1) ∅

theorem internAll_append_singleton (calls : List DfaState) (s : DfaState) :
    internAll accepting (calls ++ [s]) = ((internAll accepting calls).intern accepting s).1 := by
  rw [internAll, List.foldl_append]
  rfl

/-! ## What is there after some calls -/

theorem consistent_internAll (accepting : StateSet) (calls : List DfaState) :
    (internAll accepting calls).Consistent accepting := by
  induction calls using List.reverseRecOn with
  | nil => exact consistent_empty accepting
  | append_singleton calls s ih =>
    rw [internAll_append_singleton]
    exact ih.intern s

theorem states_internAll (calls : List DfaState) :
    (internAll accepting calls).states.toList = calls.eraseDups := by
  induction calls using List.reverseRecOn with
  | nil => rfl
  | append_singleton calls s ih =>
    have hconsistent := consistent_internAll accepting calls
    rw [internAll_append_singleton]
    by_cases hs : s ∈ calls
    · rw [← List.mem_eraseDups, ← ih, Array.mem_toList_iff, Array.mem_iff_getElem?] at hs
      obtain ⟨n, hn⟩ := hs
      rw [hconsistent.intern_of_mem hn, eraseDups_append_of_mem, ih]
      rw [← List.mem_eraseDups, ← ih, Array.mem_toList_iff]
      exact Array.mem_of_getElem? hn
    · have hnew : s ∉ (internAll accepting calls).states.toList := by rwa [ih, List.mem_eraseDups]
      rw [hconsistent.intern_of_not_mem hnew, states_add, Array.toList_push, ih,
        eraseDups_append_of_not_mem hs]

/-- Up to the capacity, the id of a state is that of its position and of no other. -/
theorem assigns_iff (h : A.size ≤ Index.capacity) :
    A.Assigns s i ↔ A.states[i.toNat]? = some s := by
  constructor
  · rintro ⟨n, hn, rfl⟩
    have hlt : n < A.size := (Array.getElem?_eq_some_iff.1 hn).1
    rwa [Index.toNat_ofNat_of_lt (Nat.lt_of_lt_of_le hlt h)]
  · intro hi
    exact ⟨i.toNat, hi, Index.ofNat_toNat i⟩

theorem isAcceptingFor_eq_true_iff : s.isAcceptingFor accepting = true ↔
    ∃ S : StateSet, s = .subset S ∧ ∃ q ∈ S, q ∈ accepting := by
  cases s with
  | subset S =>
    show (!S.isDisjoint accepting) = true ↔ _
    rw [Bool.not_eq_true', ← Bool.not_eq_true, StateSet.isDisjoint_iff]
    simp
  | sink => exact iff_of_false Bool.false_ne_true fun ⟨_, hsink, _⟩ => DfaState.noConfusion hsink

/-- The arena holds each state that was interned once, in the order of first occurrences, and the
other fields go with that. -/
structure Interned (accepting : StateSet) (calls : List DfaState) (A : Arena) : Prop where
  states_eq : A.states.toList = calls.eraseDups
  nodup : A.states.toList.Nodup
  index_iff : ∀ (s : DfaState) (i : DfaStateId), A.index[s]? = some i ↔ A.states[i.toNat]? = some s
  accepting_size : A.accepting.size = A.states.size
  rows_size : A.rows.size = A.states.size
  accepting_iff : ∀ n : Nat, A.accepting[n]? = some true ↔
    ∃ S : StateSet, A.states[n]? = some (.subset S) ∧ ∃ q ∈ S, q ∈ accepting
  sink?_iff : ∀ i : DfaStateId, A.sink? = some i ↔ A.states[i.toNat]? = some .sink

theorem Consistent.interned (h : A.Consistent accepting) (hsize : A.size ≤ Index.capacity)
    (hstates : A.states.toList = calls.eraseDups) : Interned accepting calls A where
  states_eq := hstates
  nodup := h.nodup
  index_iff s i := by rw [h.index_iff, assigns_iff hsize]
  accepting_size := by rw [h.accepting_eq, Array.size_map]
  rows_size := h.rows_size
  accepting_iff n := by
    rw [h.accepting_eq, Array.getElem?_map, Option.map_eq_some_iff]
    constructor
    · rintro ⟨s, hs, haccepting⟩
      obtain ⟨S, rfl, hS⟩ := isAcceptingFor_eq_true_iff.1 haccepting
      exact ⟨S, hs, hS⟩
    · rintro ⟨S, hs, hS⟩
      exact ⟨_, hs, isAcceptingFor_eq_true_iff.2 ⟨S, rfl, hS⟩⟩
  sink?_iff i := by rw [h.sink?_iff, assigns_iff hsize]

/-! ## What the next call does -/

theorem size_internAll (calls : List DfaState) :
    (internAll accepting calls).size = calls.eraseDups.length := by
  rw [size, ← Array.length_toList, states_internAll]

theorem mem_states_internAll : s ∈ (internAll accepting calls).states.toList ↔ s ∈ calls := by
  rw [states_internAll, List.mem_eraseDups]

/-- A state that came before is found under the id it has, and nothing changes. -/
theorem intern_internAll_of_mem (hs : s ∈ calls) :
    ∃ i, (internAll accepting calls).index[s]? = some i ∧
      (internAll accepting calls).intern accepting s = (internAll accepting calls, i, false) := by
  have hconsistent := consistent_internAll accepting calls
  obtain ⟨i, n, hn, rfl⟩ := exists_assigns_iff.2 (mem_states_internAll.2 hs)
  exact ⟨.ofNat n, (hconsistent.index_iff _ _).2 (assigns_of_getElem? hn),
    hconsistent.intern_of_mem hn⟩

/-- The arena `B` has the state `s` behind what `A` has, with an empty row, and is `A` in all
else. -/
structure Extends (accepting : StateSet) (s : DfaState) (A B : Arena) : Prop where
  states_eq : B.states = A.states.push s
  accepting_eq : B.accepting = A.accepting.push (s.isAcceptingFor accepting)
  rows_eq : B.rows = A.rows.push #[]
  index_eq : ∀ t, t ≠ s → B.index[t]? = A.index[t]?
  sink?_eq : s ≠ .sink → B.sink? = A.sink?

theorem extends_add (A : Arena) (s : DfaState) (i : DfaStateId) :
    Extends accepting s A (A.add accepting s i) where
  states_eq := rfl
  accepting_eq := rfl
  rows_eq := rfl
  index_eq t ht := by
    show (A.index.insert s i)[t]? = _
    rw [Std.ExtTreeMap.getElem?_insert, if_neg]
    rw [Std.LawfulEqCmp.compare_eq_iff_eq]
    exact ht.symm
  sink?_eq hs := by
    cases s with
    | subset S => rfl
    | sink => exact absurd rfl hs

/-- A state that is new gets the number of states as its id, if there is such an id. -/
theorem intern_internAll_of_not_mem (hs : s ∉ calls)
    (h : (internAll accepting calls).size < Index.capacity) :
    ∃ B i, (internAll accepting calls).intern accepting s = (B, i, true) ∧
      i.toNat = (internAll accepting calls).size ∧
      Extends accepting s (internAll accepting calls) B :=
  have hnew : s ∉ (internAll accepting calls).states.toList := mt mem_states_internAll.1 hs
  ⟨_, _, (consistent_internAll accepting calls).intern_of_not_mem hnew, Index.toNat_ofNat_of_lt h,
    extends_add _ _ _⟩

/-- An id that is handed out stays with its state. -/
theorem index_internAll_append (more : List DfaState)
    (h : (internAll accepting calls).index[s]? = some i) :
    (internAll accepting (calls ++ more)).index[s]? = some i := by
  rw [(consistent_internAll accepting _).index_iff] at h ⊢
  obtain ⟨n, hn, rfl⟩ := h
  rw [← Array.getElem?_toList, states_internAll] at hn
  refine ⟨n, ?_, rfl⟩
  rw [← Array.getElem?_toList, states_internAll]
  exact getElem?_eraseDups_append more hn

/-- **Interning keeps an arena consistent**, whichever states come in whichever order. After any
calls the arena holds each state once, in the order of first occurrences, and its other fields go
with that. Then a state that came before has its old id and nothing changes, a new one gets the next
id and leaves all that was there as it is, and ids are for ever.

An arena has nothing of the automaton that it is made for, whose alphabet and names are only put in
when it is finished. -/
theorem interning_consistent (accepting : StateSet) (calls : List DfaState)
    (h : calls.eraseDups.length ≤ Index.capacity) :
    Interned accepting calls (internAll accepting calls) ∧
    (∀ s ∈ calls, ∃ i, (internAll accepting calls).index[s]? = some i ∧
      (internAll accepting calls).intern accepting s = (internAll accepting calls, i, false)) ∧
    (∀ s, s ∉ calls → (internAll accepting calls).size < Index.capacity →
      ∃ B i, (internAll accepting calls).intern accepting s = (B, i, true) ∧
        i.toNat = (internAll accepting calls).size ∧
        Extends accepting s (internAll accepting calls) B) ∧
    ∀ (more : List DfaState) (s : DfaState) (i : DfaStateId),
      (internAll accepting calls).index[s]? = some i →
      (internAll accepting (calls ++ more)).index[s]? = some i := by
  have hsize : (internAll accepting calls).size ≤ Index.capacity := by rwa [size_internAll]
  refine ⟨?_, fun s hs => ?_, fun s hs hroom => ?_, fun more s i hi => ?_⟩
  · exact (consistent_internAll accepting calls).interned hsize (states_internAll calls)
  · exact intern_internAll_of_mem hs
  · exact intern_internAll_of_not_mem hs hroom
  · exact index_internAll_append more hi

/-- The sink comes between sets, and a set comes again with its members in another order. -/
def mixedStates : List DfaState :=
  [.subset (.ofList [.ofNat 0]), .sink, .subset (.ofList [.ofNat 2, .ofNat 1]), .sink, .subset ∅,
    .subset (.ofList [.ofNat 1, .ofNat 2, .ofNat 1])]

theorem interning_consistent_mixedStates :
    mixedStates.eraseDups.length = 4 ∧
    Interned (.ofList [.ofNat 1]) mixedStates (internAll (.ofList [.ofNat 1]) mixedStates) ∧
    (internAll (.ofList [.ofNat 1]) mixedStates).sink? = some (.ofNat 1) ∧
    (internAll (.ofList [.ofNat 1]) mixedStates).accepting[2]? = some true := by
  have hlength : mixedStates.eraseDups.length = 4 := by decide +kernel
  obtain ⟨hinterned, -⟩ := interning_consistent (.ofList [.ofNat 1]) mixedStates
    (by rw [hlength]; decide)
  have hget : ∀ n : Nat, (internAll (.ofList [.ofNat 1]) mixedStates).states[n]? =
      mixedStates.eraseDups[n]? := fun n => by
    rw [← Array.getElem?_toList, hinterned.states_eq]
  refine ⟨hlength, hinterned, (hinterned.sink?_iff _).2 ?_, (hinterned.accepting_iff 2).2 ?_⟩
  · rw [hget]
    decide +kernel
  · refine ⟨.ofList [.ofNat 1, .ofNat 2], ?_, .ofNat 1, by decide +kernel, by decide +kernel⟩
    rw [hget]
    decide +kernel

end FiniteAutomata.Arena
