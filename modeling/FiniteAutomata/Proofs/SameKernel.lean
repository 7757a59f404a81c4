import FiniteAutomata.Proofs.Determinized

/-!
# Automata that tell the same words apart

Two words are told apart by an automaton if they lead to different sets of states. Which words are
is all that the subset construction depends on, apart from acceptance and the sink: automata with
`Nfa.SameKernel` are determinized to as many states (`SameKernel.size_eq`) with the same rows
(`SameKernel.rows_eq`), under ids for which the same words are listed (`SameKernel.words_eq`).
-/

namespace FiniteAutomata

theorem NameTable.ids_congr {s : Space} {t u : NameTable s} (h : t.size = u.size) :
    t.ids = u.ids := by
  rw [ids, ids, h]

namespace Nfa

/-- The automata have as many symbols and tell the same words over them apart. -/
structure SameKernel (N M : Nfa) : Prop where
  symbols : N.alphabet.size = M.alphabet.size
  stateAfter_iff : ∀ u v, (∀ a ∈ u, N.alphabet.Has a) → (∀ a ∈ v, N.alphabet.Has a) →
    (N.stateAfter u = N.stateAfter v ↔ M.stateAfter u = M.stateAfter v)

variable {N M : Nfa} {w : List Symbol} {i : DfaStateId}

namespace SameKernel

variable (h : SameKernel N M)
include h

theorem listed_eq (n : Nat) : N.listed n = M.listed n := by
  rw [listed, listed, ← NameTable.ids_congr h.symbols]
  refine Exploration.listed_congr (fun u v hu hv => ?_) n
  exact h.stateAfter_iff u v (fun a ha => NameTable.mem_ids.1 (hu a ha))
    fun a ha => NameTable.mem_ids.1 (hv a ha)

/-- **The same words are listed** for the states. -/
theorem words_eq : N.words = M.words := by
  obtain ⟨p, hp, -, -⟩ := Construction.exists_stage_run N
  have hp' : (M.listed p).length = p := h.listed_eq p ▸ hp
  rw [Nfa.words_eq hp, Nfa.words_eq hp', h.listed_eq]

theorem size_eq : N.determinize.size = M.determinize.size := by
  rw [size_determinize, size_determinize, h.words_eq]

theorem state_iff (hw : ∀ a ∈ w, N.alphabet.Has a) :
    N.determinize.state i = .ok (N.stateAfter w) ↔
      M.determinize.state i = .ok (M.stateAfter w) := by
  simp only [state_determinize_iff, getElem?_states_determinize, Option.map_eq_some_iff,
    ← h.words_eq]
  refine exists_congr fun u => and_congr_right fun hu => ?_
  exact h.stateAfter_iff u w (fun a ha => has_of_mem_words (List.mem_of_getElem? hu) ha) hw

theorem rows_eq (hcap : N.determinize.size ≤ Index.capacity) :
    N.determinize.rows = M.determinize.rows := by
  have hcap' : M.determinize.size ≤ Index.capacity := h.size_eq ▸ hcap
  refine Array.ext_getElem? fun n => ?_
  cases hu : N.words[n]? with
  | none =>
    have hn : N.determinize.size ≤ n := by
      rw [size_determinize]
      exact List.getElem?_eq_none_iff.1 hu
    rw [Array.getElem?_eq_none (N.rows_size_determinize.trans_le hn),
      Array.getElem?_eq_none (M.rows_size_determinize.trans_le (h.size_eq ▸ hn))]
  | some u =>
    obtain ⟨row, hrow, hsize, hleads⟩ := exists_row_determinize hcap hu
    obtain ⟨row', hrow', hsize', hleads'⟩ := exists_row_determinize hcap' (h.words_eq ▸ hu)
    rw [hrow, hrow']
    refine congrArg some (Array.ext (by rw [hsize, hsize', h.symbols]) fun k hk hk' => ?_)
    obtain ⟨a, ha, hstate⟩ := hleads k _ (Array.getElem?_eq_getElem hk)
    obtain ⟨b, hb, hstate'⟩ := hleads' k _ (Array.getElem?_eq_getElem hk')
    rw [← NameTable.ids_congr h.symbols] at hb
    obtain rfl : a = b := Option.some.inj (ha.symm.trans hb)
    have hua : ∀ b ∈ u ++ [a], N.alphabet.Has b := by
      intro b hb
      rcases List.mem_append.1 hb with hb | hb
      · exact has_of_mem_words (List.mem_of_getElem? hu) hb
      · exact List.mem_singleton.1 hb ▸ NameTable.mem_ids.1 (List.mem_of_getElem? ha)
    exact eq_of_state_eq hcap hstate ((h.state_iff hua).2 hstate')

theorem successor_eq (hcap : N.determinize.size ≤ Index.capacity) (i : DfaStateId) (a : Symbol) :
    N.determinize.successor i a = M.determinize.successor i a := by
  rw [Dfa.successor, Dfa.successor, h.rows_eq hcap]

theorem isAccepting_eq (haccepts : ∀ w, (∀ a ∈ w, N.alphabet.Has a) →
      (N.stateAfter w).isAcceptingFor N.accepting = (M.stateAfter w).isAcceptingFor M.accepting)
    (i : DfaStateId) : N.determinize.isAccepting i = M.determinize.isAccepting i := by
  refine congrArg (Index.read i) (Array.ext_getElem? fun n => ?_)
  simp only [accepting_determinize, Array.getElem?_map, getElem?_states_determinize,
    Option.map_map, ← h.words_eq]
  refine Option.map_congr fun u hu => ?_
  exact haccepts u fun a ha => has_of_mem_words (List.mem_of_getElem? hu) ha

end SameKernel

end Nfa

end FiniteAutomata
