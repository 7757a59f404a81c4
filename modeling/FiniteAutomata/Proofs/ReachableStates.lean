import FiniteAutomata.Proofs.Determinized

/-!
# Which states the determinized automaton has

`N.ReachesExactly T`: some word leads from the start state to the members of `T` and to no other
states. The states of `N.determinize` are the sets of this kind, the empty one in the guise of the
sink (`mem_states_determinize`), and each set and the sink are found under their id
(`exists_index_determinize`, `index_determinize_eq_none`).
-/

namespace FiniteAutomata.Nfa

variable {N : Nfa} {T : StateSet} {s : DfaState} {i : DfaStateId}

/-- Some word leads from the start state to the members of `T` and to no other states. -/
def ReachesExactly (N : Nfa) (T : StateSet) : Prop :=
  ∃ w, (∀ a ∈ w, N.alphabet.Has a) ∧ ∀ p, p ∈ T ↔ N.Spells N.start w p

theorem reachesExactly_iff :
    N.ReachesExactly T ↔ ∃ w, (∀ a ∈ w, N.alphabet.Has a) ∧ N.reachable w = T := by
  simp only [ReachesExactly, StateSet.ext_iff, mem_reachable, iff_comm]

/-- The states are those that the words over the alphabet lead to. -/
theorem mem_states_determinize : s ∈ N.determinize.states.toList ↔
    ∃ T, N.ReachesExactly T ∧ Construction.stateFor T = s := by
  rw [states_determinize, List.mem_map]
  refine ⟨fun ⟨w, hw, hs⟩ => ?_, fun ⟨T, hT, hs⟩ => ?_⟩
  · exact ⟨N.reachable w, reachesExactly_iff.2 ⟨w, fun a ha => has_of_mem_words hw ha, rfl⟩, hs⟩
  · obtain ⟨v, hv, rfl⟩ := reachesExactly_iff.1 hT
    obtain ⟨w, hw, heq, -⟩ := covers_words hv
    exact ⟨w, hw, heq.trans hs⟩

theorem subset_mem_states_determinize : .subset T ∈ N.determinize.states.toList ↔
    (∃ p, p ∈ T) ∧ N.ReachesExactly T := by
  rw [mem_states_determinize]
  refine ⟨fun ⟨S, hS, hT⟩ => ?_, fun ⟨hne, hT⟩ => ?_⟩
  · obtain ⟨rfl, hne⟩ := Construction.stateFor_eq_subset_iff.1 hT
    exact ⟨hne, hS⟩
  · exact ⟨T, hT, Construction.stateFor_eq_subset_iff.2 ⟨rfl, hne⟩⟩

theorem sink_mem_states_determinize :
    .sink ∈ N.determinize.states.toList ↔ N.ReachesExactly ∅ := by
  rw [mem_states_determinize]
  refine ⟨fun ⟨S, hS, hsink⟩ => ?_, fun hempty => ⟨∅, hempty, rfl⟩⟩
  have hempty : S = ∅ := StateSet.ext fun p =>
    iff_of_false (Construction.stateFor_eq_sink_iff.1 hsink p) (StateSet.not_mem_empty p)
  exact hempty ▸ hS

/-! ## Looking states up -/

section

variable (hcap : N.determinize.size ≤ Index.capacity)
include hcap

theorem mem_states_iff_exists_id :
    s ∈ N.determinize.states.toList ↔ ∃ i, N.determinize.state i = .ok s := by
  simp only [state_determinize_iff, List.mem_iff_getElem?, Array.getElem?_toList]
  refine ⟨fun ⟨n, hn⟩ => ⟨.ofNat n, ?_⟩, fun ⟨i, hi⟩ => ⟨i.toNat, hi⟩⟩
  rwa [toNat_of_getElem?_states hcap hn]

theorem exists_index_determinize (hs : s ∈ N.determinize.states.toList) :
    ∃ i, N.determinize.index[s]? = some i ∧ N.determinize.state i = .ok s := by
  obtain ⟨i, hi⟩ := (mem_states_iff_exists_id hcap).1 hs
  exact ⟨i, (index_determinize hcap).2 hi, hi⟩

theorem index_determinize_eq_none (hs : s ∉ N.determinize.states.toList) :
    N.determinize.index[s]? = none := by
  cases hi : N.determinize.index[s]? with
  | none => rfl
  | some i =>
    exact absurd ((mem_states_iff_exists_id hcap).2 ⟨i, (index_determinize hcap).1 hi⟩) hs

end

/-- **The states are the reachable sets, each once**, and the sink where nothing is reached. -/
theorem states_determinize_exact (N : Nfa) (h : N.determinize.size ≤ Index.capacity) :
    N.determinize.states.toList.Nodup ∧
    (∀ T, .subset T ∈ N.determinize.states.toList ↔ (∃ p, p ∈ T) ∧ N.ReachesExactly T) ∧
    (.sink ∈ N.determinize.states.toList ↔ N.ReachesExactly ∅) ∧
    (N.ReachesExactly ∅ →
      ∃ i, N.determinize.sink? = some i ∧ N.determinize.state i = .ok .sink) ∧
    (¬ N.ReachesExactly ∅ → N.determinize.sink? = none) ∧
    ∀ T, ((∃ p, p ∈ T) ∧ N.ReachesExactly T →
        ∃ i, N.determinize.find? T = some i ∧ N.determinize.state i = .ok (.subset T)) ∧
      (¬ ((∃ p, p ∈ T) ∧ N.ReachesExactly T) → N.determinize.find? T = none) := by
  refine ⟨N.nodup_states_determinize, fun T => subset_mem_states_determinize,
    sink_mem_states_determinize, fun hempty => ?_, fun hempty => ?_, fun T => ⟨fun hT => ?_,
      fun hT => ?_⟩⟩
  · obtain ⟨i, -, hi⟩ := exists_index_determinize h (sink_mem_states_determinize.2 hempty)
    exact ⟨i, (sink?_determinize h).2 hi, hi⟩
  · rw [Option.eq_none_iff_forall_ne_some]
    intro i hi
    rw [sink?_determinize h] at hi
    exact hempty (sink_mem_states_determinize.1 ((mem_states_iff_exists_id h).2 ⟨i, hi⟩))
  · exact exists_index_determinize h (subset_mem_states_determinize.2 hT)
  · rw [← subset_mem_states_determinize] at hT
    exact index_determinize_eq_none h hT

theorem states_determinize_exact_readsA : readsA.determinize.size ≤ Index.capacity ∧
    ∃ i, readsA.determinize.find? (.singleton (.ofNat 2)) = some i ∧
      readsA.determinize.state i = .ok (.subset (.singleton (.ofNat 2))) := by
  have hcap : readsA.determinize.size ≤ Index.capacity := size_determinize_le_capacity (by decide)
  obtain ⟨-, -, -, -, -, hfind⟩ := states_determinize_exact readsA hcap
  have hreach : readsA.ReachesExactly (.singleton (.ofNat 2)) :=
    reachesExactly_iff.2 ⟨[.ofNat 0], by decide, rfl⟩
  exact ⟨hcap, (hfind _).1 ⟨⟨.ofNat 2, by decide⟩, hreach⟩⟩

end FiniteAutomata.Nfa
