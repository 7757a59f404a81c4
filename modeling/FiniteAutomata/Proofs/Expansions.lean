import FiniteAutomata.Proofs.GrowthBound

/-!
# Each set is expanded once

The loop of the subset construction serves its queue as long as there is something in it
(`Construction.loop_run`), with no bound on the number of passes. It ends, because a pass serves a
set that was not served before, and there are finitely many sets of states
(`Construction.Inv.expand`). Then everything that was ever queued has been served, and that is an
entry for each state of the result other than the sink (`Construction.entries_run`).
-/

namespace FiniteAutomata

namespace Construction

variable {N : Nfa} {c : Construction} {e : DfaStateId × StateSet} {n : Nat} {L : List DfaState}

/-! ## The entries for a list of states -/

theorem mem_filterMap_queueEntry : e ∈ L.zipIdx.filterMap queueEntry ↔
    ∃ n, L[n]? = some (.subset e.2) ∧ e.1 = .ofNat n := by
  obtain ⟨i, S⟩ := e
  rw [List.mem_filterMap]
  constructor
  · rintro ⟨⟨s, n⟩, hmem, hentry⟩
    cases s with
    | sink => cases hentry
    | subset T =>
      obtain ⟨rfl, rfl⟩ := Prod.mk.inj (Option.some.inj hentry)
      exact ⟨n, List.mem_zipIdx_iff_getElem?.1 hmem, rfl⟩
  · rintro ⟨n, hget, rfl⟩
    exact ⟨(.subset S, n), List.mem_zipIdx_iff_getElem?.2 hget, rfl⟩

/-- The sets of the entries are those among the states, in the same order. -/
theorem map_filterMap_queueEntry :
    ((L.zipIdx n).filterMap queueEntry).map (fun e => DfaState.subset e.2) =
      L.filter (!·.isSink) := by
  induction L generalizing n with
  | nil => rfl
  | cons s L ih =>
    rw [List.zipIdx_cons]
    cases s with
    | sink => exact ih
    | subset S => exact congrArg (DfaState.subset S :: ·) ih

/-! ## What an expansion does to the queue -/

theorem prefix_follow (i : DfaStateId) (S : StateSet) (c : Construction) (a : Symbol) :
    c.queue.entries.toList <+: (follow N i S c a).queue.entries.toList := by
  obtain ⟨A, queue⟩ := c
  simp only [follow]
  split
  · exact queue.prefix_push _
  · exact List.prefix_rfl

theorem prefix_foldl_follow (i : DfaStateId) (S : StateSet) (as : List Symbol)
    (c : Construction) :
    c.queue.entries.toList <+: (as.foldl (follow N i S) c).queue.entries.toList := by
  induction as generalizing c with
  | nil => exact List.prefix_rfl
  | cons a as ih => exact (prefix_follow i S c a).trans (ih _)

/-- Nothing that is queued is ever dropped. -/
theorem prefix_expand (hidle : c.isIdle = false) :
    c.queue.entries.toList <+: (expand N c).queue.entries.toList := by
  obtain ⟨⟨i, S⟩, queue, hpop⟩ := Worklist.exists_pop? hidle
  simp only [expand, hpop]
  rw [← Worklist.entries_pop? hpop]
  exact prefix_foldl_follow i S N.alphabet.ids ⟨c.arena, queue⟩

/-! ## The passes of the loop -/

/-- **The loop ends**, with all entries that it served on record. -/
theorem loop_run (N : Nfa) : ∃ passes, Loop isIdle (expand N) (init N) passes (run N) ∧
    passes.map (·.queue.next?) = (run N).queue.done.map some := by
  refine exists_loop_queue (P := Inv N) (fun c hc hidle => ?_) (fun c e queue hpop => ?_)
    ⟨0, atStage_init N⟩ rfl
  · obtain ⟨hnext, -, hlt⟩ := hc.expand hidle
    exact ⟨hnext, hlt⟩
  · simp only [expand, hpop]
    exact done_foldl_follow _

/-- All entries have been served in the end, and there is one for each set among the states. -/
theorem entries_run (N : Nfa) : (run N).queue.pending = [] ∧
    (run N).queue.entries.toList = (run N).queue.done ∧
    (run N).queue.done = N.determinize.states.toList.zipIdx.filterMap queueEntry := by
  obtain ⟨p, hp, hstage, hpending⟩ := exists_stage_run N
  have hentries := (run N).queue.done_append_pending
  rw [hpending, List.append_nil] at hentries
  refine ⟨hpending, hentries.symm, ?_⟩
  rw [hstage.done_eq, Nfa.states_determinize, Nfa.words_eq hp,
    List.take_of_length_le (by simp [hp])]

end Construction

/-- **The loop of the subset construction ends**: each of its passes serves another set, all that is
ever queued is served, and that is each state of the result, once, except for the sink. -/
theorem Nfa.determinize_loop (N : Nfa) : ∃ passes served,
    Loop Construction.isIdle (Construction.expand N) (Construction.init N) passes
      (Construction.run N) ∧
    passes.map (·.queue.next?) = served.map some ∧
    (served.map Prod.snd).Nodup ∧
    (∀ e ∈ served, (∃ q, q ∈ e.2) ∧ ∀ q ∈ e.2, q.toNat < N.size) ∧
    passes.length ≤ 2 ^ N.size - 1 ∧
    served.map (fun e => DfaState.subset e.2) = N.determinize.states.toList.filter (!·.isSink) ∧
    (Construction.run N).queue.pending = [] ∧
    (∀ c ∈ passes, c.queue.entries.toList <+: served) ∧
    (Construction.run N).queue.entries.toList = served ∧
    (∀ e ∈ served, ∃ n, N.determinize.states[n]? = some (.subset e.2) ∧ e.1 = .ofNat n) ∧
    (N.determinize.size ≤ Index.capacity → ∀ e ∈ served, N.determinize.isSink e.1 = false) := by
  obtain ⟨passes, hloop, hserved⟩ := Construction.loop_run N
  obtain ⟨hpending, hentries, hdone⟩ := Construction.entries_run N
  have hsets : (Construction.run N).queue.done.map (fun e => DfaState.subset e.2) =
      N.determinize.states.toList.filter (!·.isSink) := by
    rw [hdone, Construction.map_filterMap_queueEntry]
  have hstates : ∀ e ∈ (Construction.run N).queue.done,
      ∃ n, N.determinize.states[n]? = some (.subset e.2) ∧ e.1 = .ofNat n := by
    intro e he
    rw [hdone, Construction.mem_filterMap_queueEntry] at he
    simpa only [Array.getElem?_toList] using he
  refine ⟨passes, (Construction.run N).queue.done, hloop, hserved, ?_, fun e he => ?_, ?_, hsets,
    hpending, ?_, hentries, hstates, fun hcap e he => ?_⟩
  · apply List.Nodup.of_map DfaState.subset
    rw [List.map_map]
    exact hsets ▸ N.nodup_states_determinize.filter _
  · obtain ⟨n, hn, -⟩ := hstates e he
    have hmem : .subset e.2 ∈ N.determinize.states.toList :=
      Array.mem_toList_iff.2 (Array.mem_of_getElem? hn)
    obtain ⟨hne, hreach⟩ := subset_mem_states_determinize.1 hmem
    obtain ⟨w, -, hw⟩ := reachesExactly_iff.1 hreach
    exact ⟨hne, fun q hq => has_of_mem_reachable (hw ▸ hq)⟩
  · have hlt := N.countP_subsets_lt
    rw [List.countP_eq_length_filter, ← hsets, List.length_map] at hlt
    have hlength := congrArg List.length hserved
    rw [List.length_map, List.length_map] at hlength
    omega
  · refine (hloop.of_last (fun c hidle hc => ?_) ?_).2
    · exact (Construction.prefix_expand hidle).trans hc
    · rw [hentries]
  · obtain ⟨n, hn, he⟩ := hstates e he
    have hstate : N.determinize.state e.1 = .ok (.subset e.2) := by
      rw [state_determinize_iff, he, toNat_of_getElem?_states hcap hn, hn]
    rw [isSink_determinize hcap hstate]
    rfl

/-- The third state of `readsA` determinized is the sink. Two passes serve the other two. -/
theorem Nfa.determinize_loop_readsA : readsA.determinize.size ≤ Index.capacity ∧
    readsA.determinize.isSink (.ofNat 2) = true ∧
    ∃ (passes : List Construction) (served : List (DfaStateId × StateSet)),
      Loop Construction.isIdle (Construction.expand readsA) (Construction.init readsA) passes
        (Construction.run readsA) ∧
      passes.map (·.queue.next?) = served.map some ∧ served.length = 2 ∧
      ∃ e ∈ served, e.2 = .singleton (.ofNat 2) ∧ (∃ q, q ∈ e.2) ∧
        readsA.determinize.isSink e.1 = false := by
  have hcap : readsA.determinize.size ≤ Index.capacity := size_determinize_le_capacity (by decide)
  have hstates : readsA.determinize.states.toList.filter (!·.isSink) =
      [.subset (.ofList [.ofNat 0, .ofNat 1]), .subset (.singleton (.ofNat 2))] := by
    decide +kernel
  obtain ⟨passes, served, hloop, hserved, -, hmembers, -, hsets, -, -, -, -, hsink⟩ :=
    determinize_loop readsA
  rw [hstates] at hsets
  have hlength : served.length = 2 := by simpa using congrArg List.length hsets
  have hmem : .subset (.singleton (.ofNat 2)) ∈
      served.map (fun e => DfaState.subset e.2) := by simp [hsets]
  obtain ⟨e, he, heq⟩ := List.mem_map.1 hmem
  exact ⟨hcap, by decide +kernel, passes, served, hloop, hserved, hlength, e, he,
    DfaState.subset.inj heq, (hmembers e he).1, hsink hcap e he⟩

end FiniteAutomata
