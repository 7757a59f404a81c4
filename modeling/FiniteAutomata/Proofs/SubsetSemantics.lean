import FiniteAutomata.Proofs.Determinized

/-!
# What the determinized automaton computes

From every state of `N.determinize`, a word leads to the state that stands for the states that paths
of `N` spelling the word lead to (`exists_run_determinize`). The sink stands for none of them, and
a state accepts if it stands for an accepting one. From the start, this says that both automata
accept the same words (`exists_accepts_determinize`).
-/

namespace FiniteAutomata.Nfa

variable {N : Nfa} {u w : List Symbol} {i j : DfaStateId} {s t : DfaState} {p : StateId}

theorem mem_reachable_append :
    p ∈ N.reachable (u ++ w) ↔ ∃ q ∈ (N.stateAfter u).members, N.Spells q w p := by
  rw [reachable_append, mem_run, members_stateAfter]

theorem eq_sink_iff_of_state (hi : N.determinize.state i = .ok s) :
    s = .sink ↔ ∀ p, p ∉ s.members := by
  obtain ⟨u, -, hu⟩ := exists_word_of_lt (Dfa.lt_size_of_state hi)
  obtain rfl : N.stateAfter u = s := by simpa [hi] using hu.symm
  rw [members_stateAfter, stateAfter, Construction.stateFor_eq_sink_iff]

section

variable (hcap : N.determinize.size ≤ Index.capacity)
include hcap

/-- Following `w` takes the members of a state to the states that paths spelling `w` lead to. -/
theorem exists_run_determinize (hi : i.toNat < N.determinize.size)
    (hw : ∀ a ∈ w, N.alphabet.Has a) :
    ∃ s j t, N.determinize.state i = .ok s ∧ N.determinize.run i w = .ok j ∧
      N.determinize.state j = .ok t ∧ ∀ p, p ∈ t.members ↔ ∃ q ∈ s.members, N.Spells q w p := by
  obtain ⟨u, -, hu⟩ := exists_word_of_lt hi
  obtain ⟨j, hj, hstate⟩ := run_determinize hcap hu hw
  refine ⟨_, j, _, hu, hj, hstate, fun p => ?_⟩
  rw [members_stateAfter, mem_reachable_append]

theorem exists_accepts_determinize (hw : ∀ a ∈ w, N.alphabet.Has a) :
    ∃ b, N.determinize.accepts w = .ok b ∧
      (b = true ↔ ∃ p ∈ N.accepting, N.Spells N.start w p) := by
  obtain ⟨j, hj, hstate⟩ := run_determinize hcap (state_start_determinize N) hw
  rw [List.nil_append] at hstate
  refine ⟨(N.stateAfter w).isAcceptingFor N.accepting, ?_, ?_⟩
  · unfold Dfa.accepts
    rw [hj]
    exact isAccepting_determinize hstate
  · simp only [DfaState.isAcceptingFor_iff, members_stateAfter, mem_reachable]

end

/-- **Determinizing is exact**: each word leads from each state to the sink or the set that the
paths spelling the word lead to, and the same words are accepted. -/
theorem determinize_exact (N : Nfa) :
    (N.size ≤ 32 → N.determinize.size ≤ Index.capacity) ∧
    (N.determinize.size ≤ Index.capacity →
      (∀ (i : DfaStateId) (w : List Symbol), i.toNat < N.determinize.size →
        (∀ a ∈ w, N.alphabet.Has a) →
        ∃ s j t, N.determinize.state i = .ok s ∧ N.determinize.run i w = .ok j ∧
          N.determinize.state j = .ok t ∧
          (∀ p, p ∈ t.members ↔ ∃ q ∈ s.members, N.Spells q w p) ∧
          (t = .sink ↔ ¬ ∃ p, ∃ q ∈ s.members, N.Spells q w p) ∧
          N.determinize.isSink j = t.isSink ∧
          ∃ b, N.determinize.isAccepting j = .ok b ∧
            (b = true ↔ ∃ p ∈ N.accepting, ∃ q ∈ s.members, N.Spells q w p)) ∧
      (∃ s, N.determinize.state N.determinize.start = .ok s ∧
        ∀ p, p ∈ s.members ↔ N.Spells N.start [] p) ∧
      ∀ w, (∀ a ∈ w, N.alphabet.Has a) → ∃ b, N.determinize.accepts w = .ok b ∧
        (b = true ↔ ∃ p ∈ N.accepting, N.Spells N.start w p)) := by
  refine ⟨size_determinize_le_capacity, fun hcap => ⟨fun i w hi hw => ?_, ?_, fun w hw => ?_⟩⟩
  · obtain ⟨s, j, t, hs, hj, ht, hmem⟩ := exists_run_determinize hcap hi hw
    refine ⟨s, j, t, hs, hj, ht, hmem, ?_, isSink_determinize hcap ht, _,
      isAccepting_determinize ht, ?_⟩
    · rw [eq_sink_iff_of_state ht, not_exists]
      simp only [hmem]
    · rw [DfaState.isAcceptingFor_iff]
      simp only [hmem]
  · refine ⟨_, state_start_determinize N, fun p => ?_⟩
    rw [members_stateAfter, mem_reachable]
  · exact exists_accepts_determinize hcap hw

/-- The automaton `readsA` still accepts `a` when it is determinized. -/
theorem determinize_exact_readsA : readsA.size ≤ 32 ∧
    ∃ b, readsA.determinize.accepts [.ofNat 0] = .ok b ∧ b = true := by
  obtain ⟨hcap, hexact⟩ := determinize_exact readsA
  obtain ⟨-, -, haccepts⟩ := hexact (hcap (by decide))
  obtain ⟨b, hb, hiff⟩ := haccepts [.ofNat 0] (by decide)
  exact ⟨by decide, b, hb, hiff.2 ⟨.ofNat 2, by decide, spells_readsA⟩⟩

end FiniteAutomata.Nfa
