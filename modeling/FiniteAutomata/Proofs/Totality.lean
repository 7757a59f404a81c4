import FiniteAutomata.Proofs.CheckedRows

/-!
# The determinized automaton is complete

`Nfa.complete_determinize`: the tables of a determinized automaton fit together, so its queries do
not fail for its own ids and symbols, and its list of transitions has a transition for each state
and symbol. The sink, if there is one, absorbs every symbol and is entered from another state
(`successor_sink`, `exists_entry_of_sink`); every other state is a non-empty set of declared states
that is closed under epsilon transitions (`subset_of_ne_sink`).
-/

namespace FiniteAutomata.Nfa

variable {N : Nfa} {i j : DfaStateId} {a : Symbol} {s : DfaState}

/-- The empty word is the first one listed. -/
theorem size_determinize_pos (N : Nfa) : 1 ≤ N.determinize.size := by
  rw [size_determinize]
  exact (List.getElem?_eq_some_iff.1 N.ordered_words.root).1

section

variable (hcap : N.determinize.size ≤ Index.capacity)
include hcap

/-- **All tables are filled**, and with states of the automaton. -/
theorem complete_determinize : N.determinize.Complete := by
  have hrow : ∀ row ∈ N.determinize.rows, row.size = N.alphabet.size ∧
      ∀ j ∈ row, j.toNat < N.determinize.size := by
    intro row hrow
    obtain ⟨n, hn⟩ := Array.mem_iff_getElem?.1 hrow
    have hlt : n < N.words.length := by
      rw [← size_determinize, ← rows_size_determinize]
      exact (Array.getElem?_eq_some_iff.1 hn).1
    obtain ⟨row', hrow', hsize, hleads⟩ :=
      exists_row_determinize hcap (List.getElem?_eq_getElem hlt)
    obtain rfl : row = row' := Option.some.inj (hn.symm.trans hrow')
    refine ⟨hsize, fun j hj => ?_⟩
    obtain ⟨k, hk⟩ := Array.mem_iff_getElem?.1 hj
    obtain ⟨a, -, hstate⟩ := hleads k j hk
    exact Dfa.lt_size_of_state hstate
  refine ⟨hcap, ?_, N.rows_size_determinize, fun row h => (hrow row h).1,
    fun row h => (hrow row h).2, fun S hS q hq => ?_⟩
  · rw [accepting_determinize, Array.size_map, Dfa.size]
  · rw [← Array.mem_toList_iff, states_determinize] at hS
    obtain ⟨w, -, hw⟩ := List.mem_map.1 hS
    obtain ⟨rfl, -⟩ := Construction.stateFor_eq_subset_iff.1 hw
    exact has_of_mem_reachable hq

/-! ## The sink -/

theorem successor_sink (hi : N.determinize.state i = .ok .sink) (ha : N.alphabet.Has a) :
    N.determinize.successor i a = .ok i := by
  obtain ⟨u, -, hu⟩ := exists_word_of_lt (Dfa.lt_size_of_state hi)
  have hsink : N.stateAfter u = .sink := by simpa [hi] using hu.symm
  obtain ⟨j, hj, hstate⟩ := successor_determinize hcap hu ha
  rw [stateAfter_snoc_of_sink hsink] at hstate
  rw [hj, eq_of_state_eq hcap hstate hi]

/-- The sink is found by following a symbol from another state. -/
theorem exists_entry_of_sink (hi : N.determinize.state i = .ok .sink) :
    ∃ j a, j ≠ i ∧ j.toNat < N.determinize.size ∧ N.alphabet.Has a ∧
      N.determinize.successor j a = .ok i := by
  have hget := state_determinize_iff.1 hi
  rw [getElem?_states_determinize] at hget
  obtain ⟨w, hw, hsink⟩ := Option.map_eq_some_iff.1 hget
  rcases N.ordered_words.recent w (List.mem_of_getElem? hw) with rfl | ⟨m, hm, u, hu, a, ha, rfl⟩
  · rw [stateAfter_nil] at hsink
    cases hsink
  · rw [← size_determinize] at hm
    obtain ⟨k, hk, hstate⟩ := exists_successor_determinize hcap hu (NameTable.mem_ids.1 ha)
    have hid : (Index.ofNat m : DfaStateId).toNat = m :=
      Index.toNat_ofNat_of_lt (Nat.lt_of_lt_of_le hm hcap)
    rw [hsink] at hstate
    refine ⟨.ofNat m, a, fun heq => ?_, hid.symm ▸ hm, NameTable.mem_ids.1 ha, ?_⟩
    · rw [← heq, hid, hu] at hw
      simpa using congrArg List.length (Option.some.inj hw)
    · rw [hk, eq_of_state_eq hcap hstate hi]

theorem subset_of_ne_sink (hi : i.toNat < N.determinize.size) (hne : N.determinize.sink? ≠ some i) :
    ∃ S, N.determinize.state i = .ok (.subset S) ∧ (∃ q, q ∈ S) ∧ (∀ q ∈ S, N.states.Has q) ∧
      N.epsilonClosure S = S := by
  obtain ⟨u, -, hu⟩ := exists_word_of_lt hi
  cases hs : N.stateAfter u with
  | sink =>
    rw [hs, ← sink?_determinize hcap] at hu
    exact absurd hu hne
  | subset S =>
    obtain ⟨rfl, hnonempty⟩ := Construction.stateFor_eq_subset_iff.1 hs
    exact ⟨_, hs ▸ hu, hnonempty, fun q hq => has_of_mem_reachable hq, epsilonClosure_run⟩

end

/-- **Every determinized automaton is complete and well formed**, and all of its rows are filled in
alphabet order. -/
theorem determinize_total (N : Nfa) (h : N.determinize.size ≤ Index.capacity) :
    (1 ≤ N.determinize.size ∧ N.determinize.states.size = N.determinize.size ∧
      N.determinize.accepting.size = N.determinize.size ∧
      N.determinize.rows.size = N.determinize.size) ∧
    (∀ row ∈ N.determinize.rows, row.size = N.alphabet.size ∧
      ∀ j ∈ row, j.toNat < N.determinize.size) ∧
    (∀ i : DfaStateId, i.toNat < N.determinize.size →
      (∃ s, N.determinize.state i = .ok s) ∧ (∃ b, N.determinize.isAccepting i = .ok b) ∧
      (∃ text, N.determinize.stateLabel i = .ok text) ∧
      ∀ a, N.alphabet.Has a →
        ∃ j, N.determinize.successor i a = .ok j ∧ j.toNat < N.determinize.size) ∧
    (N.determinize.transitions.Pairwise DfaTransition.Before ∧
      N.determinize.transitions.length = N.determinize.size * N.alphabet.size ∧
      ∀ t, t ∈ N.determinize.transitions ↔ t.source.toNat < N.determinize.size ∧
        N.alphabet.Has t.symbol ∧ N.determinize.successor t.source t.symbol = .ok t.target) ∧
    (∀ i, N.determinize.sink? = some i →
      (∀ a, N.alphabet.Has a → N.determinize.successor i a = .ok i) ∧
      N.determinize.isAccepting i = .ok false ∧
      ∃ j a, j ≠ i ∧ j.toNat < N.determinize.size ∧ N.alphabet.Has a ∧
        N.determinize.successor j a = .ok i) ∧
    (∀ i : DfaStateId, i.toNat < N.determinize.size → N.determinize.sink? ≠ some i →
      ∃ S, N.determinize.state i = .ok (.subset S) ∧ (∃ q, q ∈ S) ∧
        (∀ q ∈ S, N.states.Has q) ∧ N.epsilonClosure S = S) ∧
    N.determinize? = some N.determinize := by
  have hcomplete := complete_determinize h
  refine ⟨⟨N.size_determinize_pos, rfl, hcomplete.accepting_size, hcomplete.rows_size⟩,
    fun row hrow => ⟨hcomplete.row_size row hrow, hcomplete.target_lt row hrow⟩, fun i hi => ?_,
    ⟨hcomplete.pairwise_transitions, hcomplete.length_transitions, fun t => ?_⟩, fun i hi => ?_,
    fun i hi hne => subset_of_ne_sink h hi hne, determinize?_eq_some h⟩
  · exact ⟨Dfa.exists_state hi, hcomplete.exists_isAccepting hi, ⟨_, hcomplete.stateLabel_eq hi⟩,
      fun a ha => hcomplete.exists_successor hi ha⟩
  · rw [hcomplete.mem_transitions]
    refine ⟨fun ht => ?_, fun ⟨_, _, ht⟩ => ht⟩
    obtain ⟨hi, ha⟩ := hcomplete.lt_of_successor ht
    exact ⟨hi, ha, ht⟩
  · rw [sink?_determinize h] at hi
    exact ⟨fun a ha => successor_sink h hi ha, isAccepting_determinize hi,
      exists_entry_of_sink h hi⟩

/-- The construction for `readsA` runs with checked rows, and adds a sink. -/
theorem determinize_total_readsA : readsA.determinize.size ≤ Index.capacity ∧
    readsA.determinize? = some readsA.determinize ∧
    ∃ j a, readsA.determinize.sink? = some (.ofNat 2) ∧ j ≠ .ofNat 2 ∧
      readsA.determinize.successor j a = .ok (.ofNat 2) := by
  have hcap : readsA.determinize.size ≤ Index.capacity := size_determinize_le_capacity (by decide)
  obtain ⟨-, -, -, -, hsink, -, hchecked⟩ := determinize_total readsA hcap
  obtain ⟨-, -, j, a, hne, -, -, hj⟩ := hsink (.ofNat 2) rfl
  exact ⟨hcap, hchecked, j, a, rfl, hne, hj⟩

end FiniteAutomata.Nfa
