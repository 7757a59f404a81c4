import Mathlib.Data.List.Nodup
import FiniteAutomata.Dfa.Arena

/-!
# The consistency of an arena

`Arena.Consistent`: the states of an arena are distinct, its index gives each of them the id it was
added under, and the acceptance list, the rows and the entry for the sink go with the states.
Interning keeps this (`Consistent.intern`), and so does appending to a row
(`Consistent.pushSuccessor`).

`Consistent.intern_of_mem` and `Consistent.intern_of_not_mem` are all that interning can do: a known
state has its old id and nothing changes, a new one is added at the end under the next id.
-/

namespace FiniteAutomata.Arena

variable {A : Arena} {accepting : StateSet} {s t : DfaState} {i j : DfaStateId} {m n : Nat}

/-- The state `s` is at the position that `i` is the id of. -/
def Assigns (A : Arena) (s : DfaState) (i : DfaStateId) : Prop :=
  ∃ n : Nat, A.states[n]? = some s ∧ Index.ofNat n = i

theorem assigns_of_getElem? (h : A.states[n]? = some s) : A.Assigns s (Index.ofNat n) := ⟨n, h, rfl⟩

theorem exists_assigns_iff : (∃ i, A.Assigns s i) ↔ s ∈ A.states.toList := by
  simp only [Assigns, List.mem_iff_getElem?, Array.getElem?_toList]
  exact ⟨fun ⟨_, n, h, _⟩ => ⟨n, h⟩, fun ⟨n, h⟩ => ⟨_, n, h, rfl⟩⟩

/-- The fields of an arena go together (module doc). -/
structure Consistent (accepting : StateSet) (A : Arena) : Prop where
  nodup : A.states.toList.Nodup
  index_iff : ∀ s i, A.index[s]? = some i ↔ A.Assigns s i
  accepting_eq : A.accepting = A.states.map (·.isAcceptingFor accepting)
  rows_size : A.rows.size = A.states.size
  sink?_iff : ∀ i, A.sink? = some i ↔ A.Assigns .sink i

theorem consistent_empty (accepting : StateSet) : empty.Consistent accepting where
  nodup := .nil
  index_iff s i := by simp [Assigns, empty]
  accepting_eq := by simp [empty]
  rows_size := rfl
  sink?_iff i := by simp [Assigns, empty]

theorem Consistent.position_inj (h : A.Consistent accepting) (hm : A.states[m]? = some s)
    (hn : A.states[n]? = some s) : m = n := by
  rw [← Array.getElem?_toList] at hm hn
  exact (List.getElem?_inj (List.getElem?_eq_some_iff.1 hm).1 h.nodup).1 (hm.trans hn.symm)

/-! ## Interning -/

theorem Consistent.intern_of_mem (h : A.Consistent accepting) (hs : A.states[n]? = some s) :
    A.intern accepting s = (A, Index.ofNat n, false) := by
  unfold intern
  rw [(h.index_iff s _).2 (assigns_of_getElem? hs)]

theorem Consistent.intern_of_not_mem (h : A.Consistent accepting) (hs : s ∉ A.states.toList) :
    A.intern accepting s = (A.add accepting s A.nextId, A.nextId, true) := by
  have hnone : A.index[s]? = none := by
    rw [Option.eq_none_iff_forall_ne_some]
    exact fun i hi => hs (exists_assigns_iff.1 ⟨i, (h.index_iff s i).1 hi⟩)
  unfold intern
  rw [hnone]

@[simp] theorem states_add : (A.add accepting s i).states = A.states.push s := rfl

theorem assigns_add : (A.add accepting s A.nextId).Assigns t i ↔
    A.Assigns t i ∨ t = s ∧ A.nextId = i := by
  simp only [Assigns, states_add, Array.getElem?_push]
  refine ⟨fun ⟨n, hn, hi⟩ => ?_, ?_⟩
  · by_cases hsize : n = A.states.size
    · rw [if_pos hsize] at hn
      subst hsize
      exact .inr ⟨(Option.some.inj hn).symm, hi⟩
    · rw [if_neg hsize] at hn
      exact .inl ⟨n, hn, hi⟩
  · intro h
    rcases h with ⟨n, hn, hi⟩ | ⟨rfl, rfl⟩
    · have hlt : n < A.states.size := (Array.getElem?_eq_some_iff.1 hn).1
      exact ⟨n, by rw [if_neg (Nat.ne_of_lt hlt), hn], hi⟩
    · exact ⟨A.states.size, by rw [if_pos rfl], rfl⟩

theorem Consistent.add (h : A.Consistent accepting) (hs : s ∉ A.states.toList) :
    (A.add accepting s A.nextId).Consistent accepting where
  nodup := by
    rw [states_add, Array.toList_push, ← List.concat_eq_append]
    exact h.nodup.concat hs
  index_iff t i := by
    rw [assigns_add]
    show (A.index.insert s A.nextId)[t]? = some i ↔ _
    rw [Std.ExtTreeMap.getElem?_insert]
    by_cases hst : s = t
    · subst hst
      have hnew : ¬ A.Assigns s i := fun hi => hs (exists_assigns_iff.1 ⟨i, hi⟩)
      simp [hnew]
    · have hts : t ≠ s := fun hts => hst hts.symm
      simp [hst, hts, h.index_iff]
  accepting_eq := by
    show A.accepting.push _ = _
    rw [h.accepting_eq, states_add, Array.map_push]
  rows_size := by
    show (A.rows.push #[]).size = _
    rw [states_add, Array.size_push, Array.size_push, h.rows_size]
  sink?_iff i := by
    rw [assigns_add]
    show (if s.isSink then some A.nextId else A.sink?) = some i ↔ _
    cases s with
    | subset S => simp [DfaState.isSink, h.sink?_iff]
    | sink =>
      have hnew : ¬ A.Assigns .sink i := fun hi => hs (exists_assigns_iff.1 ⟨i, hi⟩)
      simp [DfaState.isSink, hnew]

/-- **Interning keeps an arena consistent.** -/
theorem Consistent.intern (h : A.Consistent accepting) (s : DfaState) :
    (A.intern accepting s).1.Consistent accepting := by
  by_cases hs : s ∈ A.states.toList
  · obtain ⟨n, hn⟩ := List.mem_iff_getElem?.1 hs
    rw [h.intern_of_mem (Array.getElem?_toList ▸ hn)]
    exact h
  · rw [h.intern_of_not_mem hs]
    exact h.add hs

/-! ## Rows -/

@[simp] theorem states_pushSuccessor : (A.pushSuccessor i j).states = A.states := rfl

theorem Consistent.pushSuccessor (h : A.Consistent accepting) (i j : DfaStateId) :
    (A.pushSuccessor i j).Consistent accepting where
  nodup := h.nodup
  index_iff := h.index_iff
  accepting_eq := h.accepting_eq
  rows_size := by
    rw [states_pushSuccessor, Arena.pushSuccessor, Array.size_modify, h.rows_size]
  sink?_iff := h.sink?_iff

theorem getElem?_rows_pushSuccessor : (A.pushSuccessor i j).rows[n]? =
    if i.toNat = n then A.rows[n]?.map (·.push j) else A.rows[n]? := by
  unfold Arena.pushSuccessor
  rw [Array.getElem?_modify]

/-- A successor is appended in order exactly if the row has got as far as the symbol. -/
theorem pushInOrder?_eq_some {row : Array DfaStateId} {a : Symbol}
    (hrow : A.rows[i.toNat]? = some row) (hsize : row.size = a.toNat) :
    A.pushInOrder? i a j = some (A.pushSuccessor i j) := by
  simp only [pushInOrder?, hrow, if_pos hsize]

end FiniteAutomata.Arena
