import FiniteAutomata.Proofs.CompleteTables
import FiniteAutomata.Proofs.ConstructionStages

/-!
# The determinized automaton

`N.words` lists a word for each state of `N.determinize`: the state at position `n` is the one that
the word at position `n` leads to (`states_determinize`). Index, acceptance and sink go with the
list of states. If the ids of the states are distinct, that is, if there are at most
`Index.capacity` states, then following a word from the state of `u` leads to the state of `u ++ w`
(`Nfa.run_determinize`).
-/

namespace FiniteAutomata

open Construction (LeadsFrom)

/-! ## The listed words -/

/-- A word for each state of the determinized automaton, in the order of the states. -/
def Nfa.words (N : Nfa) : List (List Symbol) := N.listed (2 ^ N.size)

theorem Nfa.words_eq {N : Nfa} {p : Nat} (h : (N.listed p).length = p) : N.words = N.listed p := by
  have hp : p ≤ 2 ^ N.size := by
    have := length_le_of_nodup (N.ordered_listed p).nodup
    rwa [h] at this
  exact Exploration.listed_of_length_le (Nat.le_of_eq h) hp

theorem Nfa.ordered_words (N : Nfa) :
    Exploration.Ordered N.stateAfter N.alphabet.ids (· < ·) N.words.length N.words := by
  obtain ⟨p, hp, -, -⟩ := Construction.exists_stage_run N
  have hordered := N.ordered_listed p
  rw [words_eq hp]
  rwa [hp]

instance {s : Space} : IsTrans (Index s) (· < ·) := ⟨fun _ _ _ => Nat.lt_trans⟩

theorem Nfa.has_of_mem_words {N : Nfa} {w : List Symbol} {a : Symbol} (hw : w ∈ N.words)
    (ha : a ∈ w) : N.alphabet.Has a :=
  NameTable.mem_ids.1 (N.ordered_words.letters w hw a ha)

/-- **Every word leads where a listed word leads** that is no greater. -/
theorem Nfa.covers_words {N : Nfa} {v : List Symbol} (hv : ∀ a ∈ v, N.alphabet.Has a) :
    Exploration.Covers N.stateAfter (· < ·) N.words v :=
  N.ordered_words.least (Nat.le_refl _) (fun _ _ a h => stateAfter_append_congr h [a])
    fun a ha => NameTable.mem_ids.2 (hv a ha)

/-! ## The row of the sink -/

namespace Construction

variable {N : Nfa} {A : Arena} {accepting : StateSet} {n : Nat} {u as bs : List Symbol}
  {i : DfaStateId}

theorem states_foldl_pushSuccessor (i : DfaStateId) (as : List Symbol) :
    (as.foldl (fun A _ => A.pushSuccessor i i) A).states = A.states := by
  induction as generalizing A with
  | nil => rfl
  | cons a as ih => exact ih

theorem consistent_foldl_pushSuccessor (h : A.Consistent accepting) (i : DfaStateId)
    (as : List Symbol) : (as.foldl (fun A _ => A.pushSuccessor i i) A).Consistent accepting := by
  induction as generalizing A with
  | nil => exact h
  | cons a as ih => exact ih (h.pushSuccessor i i)

theorem LeadsFrom.foldl_push (h : LeadsFrom N A i.toNat u bs) (as : List Symbol)
    (hi : ∀ a ∈ as, A.states[i.toNat]? = some (N.stateAfter (u ++ [a]))) :
    LeadsFrom N (as.foldl (fun A _ => A.pushSuccessor i i) A) i.toNat u (bs ++ as) := by
  induction as generalizing A bs with
  | nil =>
    rw [List.append_nil]
    exact h
  | cons a as ih =>
    have hnext := ih (h.push (hi a List.mem_cons_self))
      fun b hb => hi b (List.mem_cons_of_mem a hb)
    rwa [List.append_assoc, List.singleton_append] at hnext

theorem LeadsFrom.foldl_push_of_ne (h : LeadsFrom N A n u bs) (hn : i.toNat ≠ n) :
    LeadsFrom N (as.foldl (fun A _ => A.pushSuccessor i i) A) n u bs := by
  induction as generalizing A with
  | nil => exact h
  | cons a as ih => exact ih (h.push_of_ne hn)

theorem states_completeSink : (completeSink N A).states = A.states := by
  unfold completeSink
  split
  · exact states_foldl_pushSuccessor _ _
  · rfl

theorem consistent_completeSink (h : A.Consistent accepting) :
    (completeSink N A).Consistent accepting := by
  unfold completeSink
  split
  · exact consistent_foldl_pushSuccessor h _ _
  · exact h

/-! ## The construction after all expansions -/

theorem consistent_run (N : Nfa) : (run N).arena.Consistent N.accepting := by
  obtain ⟨p, -, hstage, -⟩ := exists_stage_run N
  exact hstage.consistent

theorem getElem?_states_run : (run N).arena.states[n]? = N.words[n]?.map N.stateAfter := by
  obtain ⟨p, hp, hstage, -⟩ := exists_stage_run N
  rw [← Array.getElem?_toList, hstage.states_eq, Nfa.words_eq hp, List.getElem?_map]

/-- Each row is filled, unless it is that of the sink. -/
theorem leadsFrom_run (hcap : (run N).arena.size ≤ Index.capacity) (hu : N.words[n]? = some u) :
    LeadsFrom N (run N).arena n u (if N.stateAfter u = .sink then [] else N.alphabet.ids) := by
  obtain ⟨p, hp, hstage, -⟩ := exists_stage_run N
  rw [Nfa.words_eq hp] at hu
  have hlt : n < p := hp ▸ (List.getElem?_eq_some_iff.1 hu).1
  have hrow := hstage.rows hcap n u hu
  rwa [filledBefore, if_pos hlt] at hrow

theorem exists_sink_run (hcap : (run N).arena.size ≤ Index.capacity)
    (hi : (run N).arena.sink? = some i) :
    ∃ u, N.words[i.toNat]? = some u ∧ N.stateAfter u = .sink ∧
      (run N).arena.states[i.toNat]? = some .sink ∧ LeadsFrom N (run N).arena i.toNat u [] := by
  obtain ⟨n, hn, rfl⟩ := ((consistent_run N).sink?_iff i).1 hi
  have hlt := (Array.getElem?_eq_some_iff.1 hn).1
  rw [Index.toNat_ofNat_of_lt (Nat.lt_of_lt_of_le hlt hcap)]
  have hget := hn
  rw [getElem?_states_run] at hget
  obtain ⟨u, hu, hsink⟩ := Option.map_eq_some_iff.1 hget
  have hrow := leadsFrom_run hcap hu
  rw [if_pos hsink] at hrow
  exact ⟨u, hu, hsink, hn, hrow⟩

/-- In the end, the row of the sink is filled as well. -/
theorem leadsFrom_completeSink (hcap : (run N).arena.size ≤ Index.capacity)
    (hu : N.words[n]? = some u) :
    LeadsFrom N (completeSink N (run N).arena) n u N.alphabet.ids := by
  have hrow := leadsFrom_run hcap hu
  have hget : (run N).arena.states[n]? = some (N.stateAfter u) := by
    rw [getElem?_states_run, hu, Option.map_some]
  unfold completeSink
  cases hi : (run N).arena.sink? with
  | none =>
    have hne : N.stateAfter u ≠ .sink := by
      intro hsink
      rw [hsink] at hget
      have hsome := ((consistent_run N).sink?_iff _).2 (Arena.assigns_of_getElem? hget)
      cases hi.symm.trans hsome
    rwa [if_neg hne] at hrow
  | some i =>
    obtain ⟨v, hv, hsink, hget', hrow'⟩ := exists_sink_run hcap hi
    by_cases hn : i.toNat = n
    · subst hn
      obtain rfl : v = u := Option.some.inj (hv.symm.trans hu)
      have hfull := hrow'.foldl_push N.alphabet.ids fun a _ => by
        rw [hget', Nfa.stateAfter_snoc_of_sink hsink]
      rwa [List.nil_append] at hfull
    · have hne : N.stateAfter u ≠ .sink := by
        intro hsink
        rw [hsink] at hget
        exact hn ((consistent_run N).position_inj hget' hget)
      rw [if_neg hne] at hrow
      exact hrow.foldl_push_of_ne hn

end Construction

/-! ## The fields of the automaton -/

namespace Nfa

variable {N : Nfa} {u w : List Symbol} {a : Symbol} {s : DfaState} {i : DfaStateId} {n : Nat}

theorem consistent_determinize (N : Nfa) :
    (Construction.completeSink N (Construction.run N).arena).Consistent N.accepting :=
  Construction.consistent_completeSink (Construction.consistent_run N)

theorem size_run (N : Nfa) : (Construction.run N).arena.size = N.determinize.size := by
  unfold Arena.size
  rw [← Construction.states_completeSink (N := N)]
  rfl

theorem getElem?_states_determinize :
    N.determinize.states[n]? = N.words[n]?.map N.stateAfter := by
  show (Construction.completeSink N (Construction.run N).arena).states[n]? = _
  rw [Construction.states_completeSink, Construction.getElem?_states_run]

theorem states_determinize (N : Nfa) : N.determinize.states.toList = N.words.map N.stateAfter :=
  List.ext_getElem? fun n => by
    rw [Array.getElem?_toList, getElem?_states_determinize, List.getElem?_map]

theorem size_determinize (N : Nfa) : N.determinize.size = N.words.length := by
  rw [Dfa.size, ← Array.length_toList, states_determinize, List.length_map]

theorem nodup_states_determinize (N : Nfa) : N.determinize.states.toList.Nodup :=
  N.consistent_determinize.nodup

theorem index_determinize_iff : N.determinize.index[s]? = some i ↔
    ∃ n : Nat, N.determinize.states[n]? = some s ∧ Index.ofNat n = i :=
  N.consistent_determinize.index_iff s i

theorem sink?_determinize_iff : N.determinize.sink? = some i ↔
    ∃ n : Nat, N.determinize.states[n]? = some .sink ∧ Index.ofNat n = i :=
  N.consistent_determinize.sink?_iff i

theorem accepting_determinize (N : Nfa) :
    N.determinize.accepting = N.determinize.states.map (·.isAcceptingFor N.accepting) :=
  N.consistent_determinize.accepting_eq

theorem rows_size_determinize (N : Nfa) : N.determinize.rows.size = N.determinize.size :=
  N.consistent_determinize.rows_size

/-- **There are at most as many states as sets**, the sink included. -/
theorem size_determinize_le (N : Nfa) : N.determinize.size ≤ 2 ^ N.size := by
  rw [size_determinize]
  exact length_le_of_nodup N.ordered_words.nodup

theorem size_determinize_le_capacity (h : N.size ≤ 32) : N.determinize.size ≤ Index.capacity :=
  calc N.determinize.size ≤ 2 ^ N.size := N.size_determinize_le
    _ ≤ 2 ^ 32 := Nat.pow_le_pow_right (by decide) h
    _ = Index.capacity := rfl

end Nfa

/-! ## Following words -/

namespace Nfa

variable {N : Nfa} {u v w : List Symbol} {a : Symbol} {s : DfaState} {i j : DfaStateId} {n : Nat}

theorem state_determinize_iff :
    N.determinize.state i = .ok s ↔ N.determinize.states[i.toNat]? = some s :=
  Index.read_eq_ok_iff

theorem state_of_getElem?_words (hu : N.words[i.toNat]? = some u) :
    N.determinize.state i = .ok (N.stateAfter u) := by
  rw [state_determinize_iff, getElem?_states_determinize, hu, Option.map_some]

/-- The states of the automaton are those that the listed words lead to. -/
theorem exists_word_of_lt (h : i.toNat < N.determinize.size) :
    ∃ u ∈ N.words, N.determinize.state i = .ok (N.stateAfter u) := by
  rw [size_determinize] at h
  exact ⟨_, List.getElem_mem h, state_of_getElem?_words (List.getElem?_eq_getElem h)⟩

theorem isAccepting_determinize (h : N.determinize.state i = .ok s) :
    N.determinize.isAccepting i = .ok (s.isAcceptingFor N.accepting) := by
  refine Index.read_eq_ok_iff.2 ?_
  rw [accepting_determinize, Array.getElem?_map, state_determinize_iff.1 h, Option.map_some]

section

variable (hcap : N.determinize.size ≤ Index.capacity)
include hcap

theorem toNat_of_getElem?_states (h : N.determinize.states[n]? = some s) :
    (Index.ofNat n : DfaStateId).toNat = n :=
  Index.toNat_ofNat_of_lt (Nat.lt_of_lt_of_le (Array.getElem?_eq_some_iff.1 h).1 hcap)

/-- Ids and states determine each other. -/
theorem index_determinize : N.determinize.index[s]? = some i ↔ N.determinize.state i = .ok s := by
  rw [index_determinize_iff, state_determinize_iff]
  refine ⟨fun ⟨n, hn, hi⟩ => ?_, fun h => ⟨i.toNat, h, Index.ofNat_toNat i⟩⟩
  rwa [← hi, toNat_of_getElem?_states hcap hn]

theorem eq_of_state_eq (hi : N.determinize.state i = .ok s) (hj : N.determinize.state j = .ok s) :
    i = j := by
  rw [← index_determinize hcap] at hi hj
  exact Option.some.inj (hi.symm.trans hj)

theorem sink?_determinize : N.determinize.sink? = some i ↔ N.determinize.state i = .ok .sink := by
  rw [sink?_determinize_iff, state_determinize_iff]
  refine ⟨fun ⟨n, hn, hi⟩ => ?_, fun h => ⟨i.toNat, h, Index.ofNat_toNat i⟩⟩
  rwa [← hi, toNat_of_getElem?_states hcap hn]

theorem isSink_determinize (h : N.determinize.state i = .ok s) :
    N.determinize.isSink i = s.isSink := by
  have hiff : N.determinize.isSink i = true ↔ s = .sink := by
    unfold Dfa.isSink
    rw [beq_iff_eq, sink?_determinize hcap, h, Except.ok.injEq]
  rw [Bool.eq_iff_iff, hiff]
  cases s <;> simp [DfaState.isSink]

/-- **A row leads to the states of the extended words**, symbol by symbol. -/
theorem exists_row_determinize (hu : N.words[n]? = some u) :
    ∃ row, N.determinize.rows[n]? = some row ∧ row.size = N.alphabet.size ∧
      ∀ (k : Nat) (t : DfaStateId), row[k]? = some t → ∃ a, N.alphabet.ids[k]? = some a ∧
        N.determinize.state t = .ok (N.stateAfter (u ++ [a])) := by
  rw [← size_run] at hcap
  obtain ⟨row, hrow, hmap⟩ := Construction.leadsFrom_completeSink hcap hu
  refine ⟨row, hrow, ?_, fun k t ht => ?_⟩
  · have := congrArg List.length hmap
    rwa [List.length_map, List.length_map, Array.length_toList, NameTable.length_ids] at this
  · have hk := congrArg (·[k]?) hmap
    simp only [List.getElem?_map, Array.getElem?_toList, ht, Option.map_some] at hk
    obtain ⟨a, ha, hstate⟩ := Option.map_eq_some_iff.1 hk.symm
    exact ⟨a, ha, state_determinize_iff.2 hstate.symm⟩

theorem exists_successor_determinize (hu : N.words[n]? = some u) (ha : N.alphabet.Has a) :
    ∃ j, N.determinize.successor (.ofNat n) a = .ok j ∧
      N.determinize.state j = .ok (N.stateAfter (u ++ [a])) := by
  obtain ⟨row, hrow, hsize, hleads⟩ := exists_row_determinize hcap hu
  have hlt : a.toNat < row.size := hsize ▸ ha
  obtain ⟨b, hb, hstate⟩ := hleads a.toNat row[a.toNat] (Array.getElem?_eq_getElem hlt)
  rw [NameTable.getElem?_ids ha, Index.ofNat_toNat] at hb
  obtain rfl := Option.some.inj hb
  have hn : N.determinize.states[n]? = some (N.stateAfter u) := by
    rw [getElem?_states_determinize, hu, Option.map_some]
  have hread : (Index.ofNat n : DfaStateId).read N.determinize.rows = .ok row :=
    Index.read_eq_ok_iff.2 (by rwa [toNat_of_getElem?_states hcap hn])
  refine ⟨row[a.toNat], ?_, hstate⟩
  unfold Dfa.successor
  rw [hread]
  exact Index.read_eq_ok_iff.2 (Array.getElem?_eq_getElem hlt)

/-- The successor of the state of `u` on `a` is the state of `u ++ [a]`. -/
theorem successor_determinize (hi : N.determinize.state i = .ok (N.stateAfter u))
    (ha : N.alphabet.Has a) : ∃ j, N.determinize.successor i a = .ok j ∧
      N.determinize.state j = .ok (N.stateAfter (u ++ [a])) := by
  have hget := state_determinize_iff.1 hi
  rw [getElem?_states_determinize] at hget
  obtain ⟨v, hv, hvu⟩ := Option.map_eq_some_iff.1 hget
  obtain ⟨j, hj, hstate⟩ := exists_successor_determinize hcap hv ha
  rw [Index.ofNat_toNat] at hj
  exact ⟨j, hj, by rw [hstate, stateAfter_append_congr hvu]⟩

/-- **Following `w` from the state of `u` leads to the state of `u ++ w`.** -/
theorem run_determinize (hi : N.determinize.state i = .ok (N.stateAfter u))
    (hw : ∀ a ∈ w, N.alphabet.Has a) : ∃ j, N.determinize.run i w = .ok j ∧
      N.determinize.state j = .ok (N.stateAfter (u ++ w)) := by
  induction w generalizing i u with
  | nil => exact ⟨i, rfl, by rw [List.append_nil]; exact hi⟩
  | cons a w ih =>
    obtain ⟨k, hk, hstate⟩ := successor_determinize hcap hi (hw a List.mem_cons_self)
    obtain ⟨j, hj, hj'⟩ := ih hstate fun b hb => hw b (List.mem_cons_of_mem a hb)
    refine ⟨j, ?_, by rw [hj', List.append_assoc, List.singleton_append]⟩
    rw [Dfa.run, List.foldlM_cons, hk]
    exact hj

end

theorem state_start_determinize (N : Nfa) :
    N.determinize.state N.determinize.start = .ok (N.stateAfter []) :=
  state_of_getElem?_words N.ordered_words.root

end Nfa

end FiniteAutomata
