import FiniteAutomata.Proofs.Determinized

/-!
# The numbering of the states

`D.LeastWord i w`: the word `w` leads from the start state to `i`, and no word before it in shortlex
order does. The least words of the states of `N.determinize` are the listed ones (`leastWord_iff`),
so a state has exactly one, and the ids come in the order of the least words. The sink, which is
numbered while a set is expanded but never expanded itself, is no exception.
-/

namespace FiniteAutomata

open Exploration (ShortlexLE)

instance {s : Space} : Std.Asymm (α := Index s) (· < ·) := ⟨fun _ _ => Nat.lt_asymm⟩

/-- The first word in shortlex order that leads from the start state to `i`. -/
structure Dfa.LeastWord (D : Dfa) (i : DfaStateId) (w : List Symbol) : Prop where
  letters : ∀ a ∈ w, D.alphabet.Has a
  leads : D.run D.start w = .ok i
  least : ∀ v, (∀ a ∈ v, D.alphabet.Has a) → D.run D.start v = .ok i → ShortlexLE (· < ·) w v

theorem Dfa.LeastWord.unique {D : Dfa} {i : DfaStateId} {v w : List Symbol}
    (hv : D.LeastWord i v) (hw : D.LeastWord i w) : v = w :=
  (hv.least w hw.letters hw.leads).antisymm (hw.least v hv.letters hv.leads)

namespace Nfa

variable {N : Nfa} {u w : List Symbol} {i : DfaStateId}

section

variable (hcap : N.determinize.size ≤ Index.capacity)
include hcap

/-- A word leads from the start to the id of its state. -/
theorem run_start_iff (hw : ∀ a ∈ w, N.alphabet.Has a) :
    N.determinize.run N.determinize.start w = .ok i ↔
      N.determinize.state i = .ok (N.stateAfter w) := by
  obtain ⟨j, hj, hstate⟩ := run_determinize hcap (state_start_determinize N) hw
  rw [List.nil_append] at hstate
  rw [hj, Except.ok.injEq]
  refine ⟨fun hi => hi ▸ hstate, fun hi => ?_⟩
  exact eq_of_state_eq hcap hstate hi

theorem leastWord_of_getElem? (hu : N.words[i.toNat]? = some u) : N.determinize.LeastWord i u := by
  have hstate := state_of_getElem?_words hu
  have hmem := List.mem_of_getElem? hu
  have hletters : ∀ a ∈ u, N.alphabet.Has a := fun a ha => has_of_mem_words hmem ha
  refine ⟨hletters, (run_start_iff hcap hletters).2 hstate, fun v hv hrun => ?_⟩
  obtain ⟨w, hw, heq, hle⟩ := covers_words hv
  have hvu : N.stateAfter v = N.stateAfter u := by
    rw [run_start_iff hcap hv, hstate] at hrun
    exact (Except.ok.inj hrun).symm
  obtain rfl : w = u := List.inj_on_of_nodup_map N.ordered_words.nodup hw hmem (heq.trans hvu)
  exact hle

/-- **The least words are the listed ones**, in the order of their ids. -/
theorem leastWord_iff : N.determinize.LeastWord i w ↔ N.words[i.toNat]? = some w := by
  refine ⟨fun h => ?_, leastWord_of_getElem? hcap⟩
  have hi : i.toNat < N.words.length := by
    rw [← size_determinize]
    exact Dfa.lt_size_of_state ((run_start_iff hcap h.letters).1 h.leads)
  have hget := List.getElem?_eq_getElem hi
  rw [hget, (leastWord_of_getElem? hcap hget).unique h]

end

/-- **Ids are in the order of the least words** that lead to their states. -/
theorem determinize_numbering (N : Nfa) (h : N.determinize.size ≤ Index.capacity) :
    (∀ i : DfaStateId, i.toNat < N.determinize.size → ∃! w, N.determinize.LeastWord i w) ∧
    ∀ i j u v, N.determinize.LeastWord i u → N.determinize.LeastWord j v →
      (i < j ↔ List.Shortlex (· < ·) u v) := by
  refine ⟨fun i hi => ?_, fun i j u v hu hv => ?_⟩
  · rw [size_determinize] at hi
    have hleast := leastWord_of_getElem? h (List.getElem?_eq_getElem hi)
    exact ⟨_, hleast, fun w hw => hw.unique hleast⟩
  · rw [leastWord_iff h] at hu hv
    exact N.ordered_words.lt_iff hu hv

/-- In `readsA` the sink is the last state, behind the one that `a` leads to. -/
theorem determinize_numbering_readsA : readsA.determinize.size ≤ Index.capacity ∧
    ∃ u, readsA.determinize.LeastWord (.ofNat 2) u ∧
      ∃ v, readsA.determinize.LeastWord (.ofNat 1) v ∧ List.Shortlex (· < ·) v u := by
  have hcap : readsA.determinize.size ≤ Index.capacity := size_determinize_le_capacity (by decide)
  obtain ⟨hleast, hlt⟩ := determinize_numbering readsA hcap
  obtain ⟨u, hu, -⟩ := hleast (.ofNat 2) (by decide +kernel)
  obtain ⟨v, hv, -⟩ := hleast (.ofNat 1) (by decide +kernel)
  exact ⟨hcap, u, hu, v, hv, (hlt _ _ v u hv hu).1 (by decide)⟩

end Nfa

end FiniteAutomata
