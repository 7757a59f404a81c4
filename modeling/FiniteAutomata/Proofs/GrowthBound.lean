import FiniteAutomata.Proofs.DeclaredParts
import FiniteAutomata.Proofs.ReachableStates

/-!
# How many states determinizing can make

An automaton with `n` states is determinized to at most `2 ^ n` states: the non-empty sets are
`2 ^ n - 1` at most (`Nfa.countP_subsets_lt`), and the sink stands for the empty one. This is less
than `subsetBound n` as far as 64 bits can tell.

The bound is reached by `collector n`. The automaton is in its first state and in those it has
collected: symbol `k` collects state `k`, and symbol `0` gives the first state up. So words lead to
every set of states (`reachesExactly_collector`), and there are `2 ^ n` of them
(`Nfa.two_pow_le_size`).
-/

namespace FiniteAutomata

theorem subsetBound_eq (n : Nat) : subsetBound n = min (2 ^ n + 1) (2 ^ 64 - 1) := by
  unfold subsetBound
  split
  · have hle : 2 ^ 64 ≤ 2 ^ n := Nat.pow_le_pow_right (by decide) ‹64 ≤ n›
    rw [Nat.min_eq_right (by omega)]
    rfl
  · have hle : 2 ^ n ≤ 2 ^ 63 := Nat.pow_le_pow_right (by decide) (by omega)
    rw [Nat.min_eq_left (by omega)]
    rfl

namespace Nfa

variable {N : Nfa} {s : DfaState} {q : StateId}

theorem exists_subset_of_mem (hs : s ∈ N.determinize.states.toList) (hsink : s.isSink = false) :
    ∃ w, s = .subset (N.reachable w) ∧ ∃ p, p ∈ N.reachable w := by
  rw [states_determinize] at hs
  obtain ⟨w, -, rfl⟩ := List.mem_map.1 hs
  cases hw : N.stateAfter w with
  | sink =>
    rw [hw] at hsink
    cases hsink
  | subset S =>
    obtain ⟨rfl, hne⟩ := Construction.stateFor_eq_subset_iff.1 hw
    exact ⟨w, rfl, hne⟩

/-- The states other than the sink are fewer than the sets of states. -/
theorem countP_subsets_lt (N : Nfa) :
    N.determinize.states.toList.countP (!·.isSink) < 2 ^ N.size := by
  rw [List.countP_eq_length_filter]
  generalize hL : N.determinize.states.toList.filter (!·.isSink) = L
  have hmem : ∀ s ∈ L, ∃ w, s = .subset (N.reachable w) ∧ ∃ p, p ∈ N.reachable w := by
    intro s hs
    rw [← hL, List.mem_filter, Bool.not_eq_true'] at hs
    exact exists_subset_of_mem hs.1 hs.2
  -- none of these states stands for the empty set, which makes one more set
  have hnodup : (∅ :: L.map DfaState.members).Nodup := by
    rw [List.nodup_cons]
    constructor
    · intro hempty
      obtain ⟨s, hs, hs'⟩ := List.mem_map.1 hempty
      obtain ⟨w, rfl, p, hp⟩ := hmem s hs
      rw [show N.reachable w = ∅ from hs'] at hp
      exact StateSet.not_mem_empty p hp
    · have hfilter : L.Nodup := hL ▸ N.nodup_states_determinize.filter _
      refine hfilter.map_on fun s hs t ht hst => ?_
      obtain ⟨u, rfl, -⟩ := hmem s hs
      obtain ⟨v, rfl, -⟩ := hmem t ht
      exact congrArg DfaState.subset hst
  have hle : (∅ :: L.map DfaState.members).length ≤ 2 ^ N.size := by
    refine StateSet.length_le_of_nodup hnodup fun S hS q hq => ?_
    rcases List.mem_cons.1 hS with rfl | hS
    · exact absurd hq (StateSet.not_mem_empty q)
    · obtain ⟨s, hs, rfl⟩ := List.mem_map.1 hS
      obtain ⟨w, rfl, -⟩ := hmem s hs
      exact has_of_mem_reachable hq
  rwa [List.length_cons, List.length_map] at hle

/-- The states at the given positions. -/
def statesAt (N : Nfa) (A : Finset Nat) : StateSet :=
  .ofList (N.stateIds.filter fun q => q.toNat ∈ A)

theorem mem_statesAt {A : Finset Nat} : q ∈ N.statesAt A ↔ N.states.Has q ∧ q.toNat ∈ A := by
  simp [statesAt, stateIds]

theorem positions_statesAt {A : Finset Nat} (hA : A ⊆ Finset.range N.size) :
    (N.statesAt A).positions = A := by
  ext k
  rw [StateSet.mem_positions]
  constructor
  · rintro ⟨q, hq, rfl⟩
    exact (mem_statesAt.1 hq).2
  · intro hk
    have hlt : k < N.states.size := Finset.mem_range.1 (hA hk)
    have hid : (Index.ofNat k : StateId).toNat = k := NameTable.toNat_ofNat_of_lt_size hlt
    exact ⟨.ofNat k, mem_statesAt.2 ⟨by rwa [NameTable.Has, hid], by rwa [hid]⟩, hid⟩

/-- If words lead to all sets of states, there is a state for each. -/
theorem two_pow_le_size (h : ∀ T : StateSet, (∀ q ∈ T, N.states.Has q) → N.ReachesExactly T) :
    2 ^ N.size ≤ N.determinize.size := by
  have hmaps : Set.MapsTo (fun A => Construction.stateFor (N.statesAt A))
      (Finset.range N.size).powerset N.determinize.states.toList.toFinset := by
    intro A _
    rw [Finset.mem_coe, List.mem_toFinset, mem_states_determinize]
    exact ⟨N.statesAt A, h _ fun q hq => (mem_statesAt.1 hq).1, rfl⟩
  have hinj : Set.InjOn (fun A => Construction.stateFor (N.statesAt A))
      (Finset.range N.size).powerset := by
    intro A hA B hB hAB
    rw [Finset.mem_coe, Finset.mem_powerset] at hA hB
    rw [← positions_statesAt hA, Construction.stateFor_inj hAB, positions_statesAt hB]
  calc 2 ^ N.size = (Finset.range N.size).powerset.card := by
        rw [Finset.card_powerset, Finset.card_range]
    _ ≤ N.determinize.states.toList.toFinset.card := Finset.card_le_card_of_injOn _ hmaps hinj
    _ ≤ N.determinize.states.toList.length := List.toFinset_card_le _
    _ = N.determinize.size := Array.length_toList

end Nfa

/-! ## An automaton that reaches the bound -/

/-- Where a symbol leads from a state. Every state but the first is kept. -/
def collected (q : StateId) (a : Symbol) : List StateId :=
  if q.toNat ≠ 0 then [q] else if a.toNat ≠ 0 then [q, a.recast] else []

theorem mem_collected {q p : StateId} {a : Symbol} : p ∈ collected q a ↔
    q.toNat ≠ 0 ∧ p = q ∨ q.toNat = 0 ∧ a.toNat ≠ 0 ∧ (p = q ∨ p = a.recast) := by
  unfold collected
  split
  · simp [*]
  · split <;> simp_all

/-- The symbols that collect the members of a set. -/
def collecting (T : StateSet) : List Symbol := (T.toList.filter (·.toNat ≠ 0)).map Index.recast

theorem mem_collecting {T : StateSet} {a : Symbol} :
    a ∈ collecting T ↔ a.toNat ≠ 0 ∧ a.recast ∈ T := by
  simp only [collecting, List.mem_map, List.mem_filter, decide_eq_true_eq]
  constructor
  · rintro ⟨q, ⟨hq, hne⟩, rfl⟩
    exact ⟨hne, hq⟩
  · rintro ⟨hne, ha⟩
    exact ⟨a.recast, ⟨ha, hne⟩, rfl⟩

/-- The automaton of `n` states with as many symbols. -/
def collector (n : Nat) : Parts where
  states := .displayed .state n
  alphabet := .displayed .symbol n
  transitions := (Index.first .state n).flatMap fun q => (Index.first .symbol n).flatMap fun a =>
    (collected q a).map fun p => ⟨q, .symbol a, p⟩
  start := .ofNat 0
  accepting := []

section

variable {N : Nfa} {n : Nat} {S T : StateSet} {q p : StateId} {l : Label} {a : Symbol}
  {w : List Symbol} (hn : n ≤ Index.capacity)
include hn

theorem mem_transitions_collector : ⟨q, l, p⟩ ∈ (collector n).transitions ↔
    ∃ a, l = .symbol a ∧ q.toNat < n ∧ a.toNat < n ∧ p ∈ collected q a := by
  simp only [collector, List.mem_flatMap, List.mem_map, Index.mem_first hn, Transition.mk.injEq]
  constructor
  · rintro ⟨q, hq, a, ha, p, hp, rfl, rfl, rfl⟩
    exact ⟨a, rfl, hq, ha, hp⟩
  · rintro ⟨a, rfl, hq, ha, hp⟩
    exact ⟨q, hq, a, ha, p, hp, rfl, rfl, rfl⟩

theorem wellFormed_collector (hpos : 1 ≤ n) : (collector n).WellFormed := by
  have hhas {s t : Space} {i : Index t} (hi : i.toNat < n) : (NameTable.displayed s n).Has i :=
    (NameTable.has_displayed hn).2 hi
  refine ⟨?_, ?_, hhas hpos, fun q hq => absurd hq List.not_mem_nil⟩
  · intro name hname
    rcases hname with hname | hname <;> exact NameTable.not_reserved_displayed hn hname
  · rintro ⟨q, l, p⟩ hu
    obtain ⟨a, rfl, hq, ha, hp⟩ := (mem_transitions_collector hn).1 hu
    refine ⟨hhas hq, hhas ha, hhas ?_⟩
    rcases mem_collected.1 hp with ⟨-, rfl⟩ | ⟨-, -, rfl | rfl⟩
    · exact hq
    · exact hq
    · exact ha

variable (hN : N.HasParts (collector n))
include hN

theorem has_state_iff_of_collector : N.states.Has q ↔ q.toNat < n := by
  rw [hN.states_eq]
  exact NameTable.has_displayed hn

theorem has_symbol_iff_of_collector : N.alphabet.Has a ↔ a.toNat < n := by
  rw [hN.alphabet_eq]
  exact NameTable.has_displayed hn

theorem epsilonClosure_collector : N.epsilonClosure S = S := by
  apply Nfa.epsilonClosure_eq_self
  intro q p hp
  rw [hN.mem_successors_iff, mem_transitions_collector hn] at hp
  obtain ⟨a, ha, -⟩ := hp
  cases ha

theorem mem_reach_collector (hS : ∀ q ∈ S, N.states.Has q) (ha : N.alphabet.Has a) :
    p ∈ N.reach S a ↔ ∃ q ∈ S, p ∈ collected q a := by
  rw [Nfa.reach, epsilonClosure_collector hn hN, Nfa.mem_moves]
  refine exists_congr fun q => and_congr_right fun hq => ?_
  have hq' : q.toNat < n := (has_state_iff_of_collector hn hN).1 (hS q hq)
  have ha' : a.toNat < n := (has_symbol_iff_of_collector hn hN).1 ha
  simp [hN.mem_successors_iff, mem_transitions_collector hn, hq', ha']

/-- The states that the symbols of a word stand for are collected. -/
theorem mem_reachable_collector (hw : ∀ a ∈ w, N.alphabet.Has a ∧ a.toNat ≠ 0) :
    p ∈ N.reachable w ↔ p.toNat = 0 ∨ ∃ a ∈ w, p = a.recast := by
  induction w using List.reverseRecOn generalizing p with
  | nil =>
    rw [Nfa.reachable_nil, Nfa.initialSet, epsilonClosure_collector hn hN, hN.start_eq,
      StateSet.mem_singleton, ← Index.toNat_inj]
    simp [collector]
  | append_singleton w a ih =>
    obtain ⟨ha, hne⟩ := hw a (by simp)
    have hmem {q : StateId} := @ih q fun b hb => hw b (by simp [hb])
    rw [Nfa.reachable_snoc, mem_reach_collector hn hN (fun q hq => Nfa.has_of_mem_reachable hq) ha]
    constructor
    · rintro ⟨q, hq, hp⟩
      rcases mem_collected.1 hp with ⟨-, rfl⟩ | ⟨hzero, -, rfl | rfl⟩
      · exact (hmem.1 hq).imp id fun ⟨b, hb, hp⟩ => ⟨b, by simp [hb], hp⟩
      · exact .inl hzero
      · exact .inr ⟨a, by simp, rfl⟩
    · intro hp
      rcases hp with hp | ⟨b, hb, rfl⟩
      · exact ⟨p, hmem.2 (.inl hp), mem_collected.2 (.inr ⟨hp, hne, .inl rfl⟩)⟩
      · rcases List.mem_append.1 hb with hb | hb
        · have hb' := (hw b (by simp [hb])).2
          exact ⟨b.recast, hmem.2 (.inr ⟨b, hb, rfl⟩), mem_collected.2 (.inl ⟨hb', rfl⟩)⟩
        · obtain rfl := List.mem_singleton.1 hb
          have hzero : (Index.ofNat 0 : StateId).toNat = 0 := rfl
          exact ⟨.ofNat 0, hmem.2 (.inl hzero), mem_collected.2 (.inr ⟨hzero, hne, .inr rfl⟩)⟩

theorem has_of_mem_collecting (hT : ∀ q ∈ T, N.states.Has q) (ha : a ∈ collecting T) :
    N.alphabet.Has a := by
  have hlt := (has_state_iff_of_collector hn hN).1 (hT _ (mem_collecting.1 ha).2)
  exact (has_symbol_iff_of_collector hn hN).2 hlt

theorem mem_reachable_collecting (hT : ∀ q ∈ T, N.states.Has q) :
    p ∈ N.reachable (collecting T) ↔ p.toNat = 0 ∨ p ∈ T := by
  have hw : ∀ a ∈ collecting T, N.alphabet.Has a ∧ a.toNat ≠ 0 := by
    intro a ha
    exact ⟨has_of_mem_collecting hn hN hT ha, (mem_collecting.1 ha).1⟩
  rw [mem_reachable_collector hn hN hw]
  constructor
  · rintro (hp | ⟨a, ha, rfl⟩)
    · exact .inl hp
    · exact .inr (mem_collecting.1 ha).2
  · intro hp
    by_cases hzero : p.toNat = 0
    · exact .inl hzero
    · exact .inr ⟨p.recast, mem_collecting.2 ⟨hzero, hp.resolve_left hzero⟩, rfl⟩

/-- **Words lead to every set of states.** -/
theorem reachesExactly_collector (hpos : 1 ≤ n) (hT : ∀ q ∈ T, N.states.Has q) :
    N.ReachesExactly T := by
  have hmem {p : StateId} := mem_reachable_collecting (p := p) hn hN hT
  have hsymbols : ∀ a ∈ collecting T, N.alphabet.Has a := by
    intro a ha
    exact has_of_mem_collecting hn hN hT ha
  rw [Nfa.reachesExactly_iff]
  by_cases hstart : .ofNat 0 ∈ T
  · refine ⟨collecting T, hsymbols, StateSet.ext fun p => hmem.trans ?_⟩
    refine or_iff_right_of_imp fun hp => ?_
    obtain rfl : p = .ofNat 0 := Index.ext_toNat hp
    exact hstart
  · -- symbol 0 gives the first state up, which is not in the set
    have hzero : (Index.ofNat 0 : Symbol).toNat = 0 := rfl
    have hlast : N.alphabet.Has (.ofNat 0) := (has_symbol_iff_of_collector hn hN).2 hpos
    refine ⟨collecting T ++ [.ofNat 0], fun a ha => ?_, StateSet.ext fun p => ?_⟩
    · rcases List.mem_append.1 ha with ha | ha
      · exact hsymbols a ha
      · rwa [List.mem_singleton.1 ha]
    · rw [Nfa.reachable_snoc,
        mem_reach_collector hn hN (fun q hq => Nfa.has_of_mem_reachable hq) hlast]
      constructor
      · rintro ⟨q, hq, hp⟩
        rcases mem_collected.1 hp with ⟨hne, rfl⟩ | ⟨-, hne, -⟩
        · exact (hmem.1 hq).resolve_left hne
        · exact absurd hzero hne
      · intro hp
        have hne : p.toNat ≠ 0 := by
          intro hp0
          obtain rfl : p = .ofNat 0 := Index.ext_toNat hp0
          exact hstart hp
        exact ⟨p, hmem.2 (.inr hp), mem_collected.2 (.inl ⟨hne, rfl⟩)⟩

end

theorem exists_size_determinize_eq {n : Nat} (hpos : 1 ≤ n) (hn : n ≤ Index.capacity) :
    ∃ (d : Definition) (N : Nfa), d.states.length = n ∧ d.build = .ok N ∧ N.size = n ∧
      N.determinize.size = 2 ^ n := by
  obtain ⟨N, hN, hparts⟩ := (wellFormed_collector hn hpos).exists_build
  have hsize : N.size = n := by
    rw [Nfa.size, hparts.states_eq, collector, NameTable.size_displayed hn]
  have hle := N.size_determinize_le
  have hge := Nfa.two_pow_le_size fun T hT => reachesExactly_collector hn hparts hpos hT
  rw [hsize] at hle hge
  refine ⟨(collector n).toDefinition, N, NameTable.size_displayed hn, hN, hsize, ?_⟩
  omega

/-- **Determinizing `n` states makes at most `2 ^ n` of them**, the sink included, and for some
automata of every size it makes as many. -/
theorem Nfa.size_determinize_sharp :
    (∀ N : Nfa, N.determinize.size ≤ 2 ^ N.size ∧
      N.determinize.states.toList.countP (!·.isSink) ≤ 2 ^ N.size - 1 ∧
      (N.size ≤ 63 → N.determinize.size < subsetBound N.size)) ∧
    (∀ n, subsetBound n = min (2 ^ n + 1) (2 ^ 64 - 1)) ∧
    ∀ n, 1 ≤ n → n ≤ 2 ^ 32 → ∃ (d : Definition) (N : Nfa), d.states.length = n ∧
      d.build = .ok N ∧ N.size = n ∧ N.determinize.size = 2 ^ n := by
  refine ⟨fun N => ?_, subsetBound_eq, fun n hpos hn => exists_size_determinize_eq hpos hn⟩
  have hsize := N.size_determinize_le
  have hsubsets := N.countP_subsets_lt
  refine ⟨hsize, by omega, fun hN => ?_⟩
  have hpow : 2 ^ N.size ≤ 2 ^ 63 := Nat.pow_le_pow_right (by decide) hN
  rw [subsetBound_eq]
  omega

/-- Three states can become eight, those of `readsA` become fewer. -/
theorem Nfa.size_determinize_sharp_three : readsA.size ≤ 63 ∧
    readsA.determinize.size < subsetBound readsA.size ∧ 1 ≤ 3 ∧ 3 ≤ 2 ^ 32 ∧
    ∃ (d : Definition) (N : Nfa), d.states.length = 3 ∧ d.build = .ok N ∧ N.size = 3 ∧
      N.determinize.size = 8 := by
  obtain ⟨hbound, -, hsharp⟩ := size_determinize_sharp
  have hthree : readsA.size ≤ 63 := by decide
  exact ⟨hthree, (hbound readsA).2.2 hthree, by decide, by decide, hsharp 3 (by decide) (by decide)⟩

end FiniteAutomata
