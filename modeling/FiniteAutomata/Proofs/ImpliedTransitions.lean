import FiniteAutomata.Proofs.BuiltAutomata
import FiniteAutomata.Proofs.Determinized

/-!
# Implied transitions

`N.Implies u`: the target of `u` is among the states that `N` can be in anyway after reading the
label of `u` in its source. If all transitions that `M` has beyond those of `N` are implied
(`Nfa.Saturates`), both automata have the same closures (`Saturates.epsilonClosure_eq`) and, from
closed sets, the same moves (`Saturates.reach_eq`). Only closed sets are expanded, so the two
constructions run in lock step (`Saturates.run_eq`) to the same result.
-/

namespace FiniteAutomata

open Construction (Inv)

namespace Nfa

variable {N M : Nfa} {S T : StateSet} {a : Symbol} {p q : StateId} {u : Transition}

/-! ## Larger sets -/

/-- The closure of a member adds nothing to a closure. -/
theorem mem_epsilonClosure_trans (hp : p ∈ N.epsilonClosure S)
    (hq : q ∈ N.epsilonClosure (.singleton p)) : q ∈ N.epsilonClosure S :=
  epsilonClosure_subset (fun _ hr => StateSet.mem_singleton.1 hr ▸ hp)
    (fun _ hr _ hp => mem_epsilonClosure_of_successor hr hp) hq

theorem epsilonClosure_mono (h : ∀ q ∈ S, q ∈ T) (hp : p ∈ N.epsilonClosure S) :
    p ∈ N.epsilonClosure T :=
  epsilonClosure_subset (fun q hq => mem_epsilonClosure_of_mem (h q hq))
    (fun _ hr _ hp => mem_epsilonClosure_of_successor hr hp) hp

theorem moves_mono (h : ∀ q ∈ S, q ∈ T) (hp : p ∈ N.moves S a) : p ∈ N.moves T a := by
  obtain ⟨q, hq, hqp⟩ := mem_moves.1 hp
  exact mem_moves.2 ⟨q, h q hq, hqp⟩

theorem reach_mono (h : ∀ q ∈ S, q ∈ T) (hp : p ∈ N.reach S a) : p ∈ N.reach T a :=
  epsilonClosure_mono (fun _ => moves_mono h) hp

/-! ## What is implied -/

/-- Reading the label in the source can end in the target as it is. -/
def Implies (N : Nfa) (u : Transition) : Prop :=
  match u.label with
  | .epsilon => u.target ∈ N.epsilonClosure (.singleton u.source)
  | .symbol a => u.target ∈ N.epsilonClosure (N.moves (N.epsilonClosure (.singleton u.source)) a)

theorem implies_of_holds (h : N.relation.Holds u) : N.Implies u := by
  obtain ⟨q, l, p⟩ := u
  have hq : q ∈ N.epsilonClosure (.singleton q) :=
    mem_epsilonClosure_of_mem (StateSet.mem_singleton.2 rfl)
  cases l with
  | epsilon => exact mem_epsilonClosure_of_successor hq h
  | symbol a => exact mem_epsilonClosure_of_mem (mem_moves.2 ⟨q, hq, h⟩)

/-- `M` is `N` with some implied transitions added. -/
structure Saturates (N M : Nfa) : Prop where
  states_eq : M.states = N.states
  alphabet_eq : M.alphabet = N.alphabet
  start_eq : M.start = N.start
  accepting_eq : M.accepting = N.accepting
  holds : ∀ u, N.relation.Holds u → M.relation.Holds u
  implied : ∀ u, M.relation.Holds u → N.Implies u

namespace Saturates

variable (h : Saturates N M)
include h

theorem mem_successors {l : Label} (hp : p ∈ N.successors q l) : p ∈ M.successors q l :=
  h.holds ⟨q, l, p⟩ hp

theorem epsilonClosure_eq (S : StateSet) : M.epsilonClosure S = N.epsilonClosure S := by
  refine StateSet.ext fun p => ⟨fun hp => ?_, fun hp => ?_⟩
  · refine epsilonClosure_subset (fun _ => mem_epsilonClosure_of_mem) (fun q hq r hr => ?_) hp
    exact mem_epsilonClosure_trans hq (h.implied ⟨q, .epsilon, r⟩ hr)
  · refine epsilonClosure_subset (fun _ => mem_epsilonClosure_of_mem) (fun q hq r hr => ?_) hp
    exact mem_epsilonClosure_of_successor hq (h.mem_successors hr)

/-- From a closed set, both automata move to the same states. -/
theorem reach_eq (hS : N.epsilonClosure S = S) (a : Symbol) : M.reach S a = N.reach S a := by
  refine StateSet.ext fun p => ?_
  rw [reach, reach, h.epsilonClosure_eq]
  constructor
  · refine epsilonClosure_subset (fun r hr => ?_) fun _ hr _ hp =>
      mem_epsilonClosure_of_successor hr hp
    obtain ⟨q, hq, hqr⟩ := mem_moves.1 hr
    have hsub : ∀ q' ∈ N.epsilonClosure (.singleton q), q' ∈ S := by
      intro q' hq'
      rw [← hS] at hq ⊢
      exact mem_epsilonClosure_trans hq hq'
    exact reach_mono hsub (h.implied ⟨q, .symbol a, r⟩ hqr)
  · refine epsilonClosure_mono fun r hr => ?_
    obtain ⟨q, hq, hqr⟩ := mem_moves.1 hr
    exact mem_moves.2 ⟨q, hq, h.mem_successors hqr⟩

/-! ## Two constructions in lock step -/

theorem follow_eq (hS : N.epsilonClosure S = S) (source : DfaStateId) :
    Construction.follow M source S = Construction.follow N source S := by
  funext c a
  simp only [Construction.follow, h.reach_eq hS, h.accepting_eq]

/-- The sets that are expanded are closed, so both automata expand them alike. -/
theorem expand_eq {c : Construction} (hc : Inv N c) (hidle : c.isIdle = false) :
    Construction.expand M c = Construction.expand N c := by
  obtain ⟨p, u, S, hp, hu, hset⟩ := hc.next hidle
  obtain ⟨queue, hpop, -, -⟩ := hp.pop hu hset
  obtain ⟨rfl, -⟩ := Construction.stateFor_eq_subset_iff.1 hset
  unfold Construction.expand
  rw [hpop]
  show M.alphabet.ids.foldl _ _ = N.alphabet.ids.foldl _ _
  rw [h.alphabet_eq, h.follow_eq (S := N.reachable u) epsilonClosure_run]

theorem init_eq : Construction.init M = Construction.init N := by
  unfold Construction.init initialSet
  rw [h.epsilonClosure_eq, h.start_eq, h.accepting_eq]

theorem run_eq : Construction.run M = Construction.run N := by
  have hsize : M.size = N.size := congrArg NameTable.size h.states_eq
  unfold Construction.run
  rw [h.init_eq, hsize]
  exact exhaust_congr (P := Inv N) (fun c hc hidle => (hc.expand hidle).1)
    (fun c hc hidle => h.expand_eq hc hidle) ⟨0, Construction.atStage_init N⟩ _

theorem determinize_eq : M.determinize = N.determinize := by
  unfold determinize Construction.completeSink
  rw [h.run_eq, h.alphabet_eq, h.states_eq]

end Saturates

end Nfa

/-! ## Definitions with more transitions -/

namespace Definition

variable {d : Definition} {N M : Nfa} {ts : List NamedTransition}

theorem Valid.addTransitions (h : d.Valid)
    (hts : ∀ t ∈ ts, ∃ u, t.Denotes (.ofList d.states) (.ofList d.symbols) u) :
    (d.addTransitions ts).Valid where
  states_ne_nil := h.states_ne_nil
  not_reserved := h.not_reserved
  transitions t ht := (List.mem_append.1 ht).elim (h.transitions t) (hts t)
  start := h.start
  accepting := h.accepting

/-- Transitions that are added to a definition are added to what it describes. -/
theorem saturates_of_describes (hN : d.Describes N) (hM : (d.addTransitions ts).Describes M)
    (hts : ∀ t ∈ ts, ∃ u, t.Denotes N.states N.alphabet u ∧ N.Implies u) : N.Saturates M := by
  have hstates : M.states = N.states := hM.states_eq.trans hN.states_eq.symm
  have halphabet : M.alphabet = N.alphabet := hM.alphabet_eq.trans hN.alphabet_eq.symm
  have hholds : ∀ u, M.relation.Holds u ↔
      N.relation.Holds u ∨ ∃ t ∈ ts, t.Denotes N.states N.alphabet u := by
    intro u
    rw [hM.holds_iff, hN.holds_iff, hstates, halphabet]
    simp only [addTransitions, List.mem_append, or_and_right, exists_or]
  refine ⟨hstates, halphabet, ?_, StateSet.ext fun q => ?_, fun u hu => (hholds u).2 (.inl hu),
    fun u hu => ?_⟩
  · obtain ⟨name, hstart, hname⟩ := hN.start
    obtain ⟨name', hstart', hname'⟩ := hM.start
    obtain rfl : name = name' := Option.some.inj (hstart.symm.trans hstart')
    rw [hstates, hname] at hname'
    exact (Option.some.inj hname').symm
  · rw [hM.mem_accepting, hN.mem_accepting, hstates]
    rfl
  · rcases (hholds u).1 hu with hu | ⟨t, ht, hu⟩
    · exact Nfa.implies_of_holds hu
    · obtain ⟨v, hv, himplied⟩ := hts t ht
      rwa [hu.unique hv]

/-- **Implied transitions are redundant**: adding them to a definition leaves the determinized
automaton as it is. -/
theorem determinize_addTransitions (hN : d.build = .ok N)
    (hts : ∀ t ∈ ts, ∃ u, t.Denotes N.states N.alphabet u ∧ N.Implies u) :
    ∃ M, (d.addTransitions ts).build = .ok M ∧ M.determinize = N.determinize := by
  have hdescribes := describes_of_build hN
  have hvalid : (d.addTransitions ts).Valid := by
    refine (exists_build_iff.1 ⟨N, hN⟩).addTransitions fun t ht => ?_
    obtain ⟨u, hu, -⟩ := hts t ht
    rw [hdescribes.states_eq, hdescribes.alphabet_eq] at hu
    exact ⟨u, hu⟩
  obtain ⟨M, hM⟩ := exists_build_iff.2 hvalid
  exact ⟨M, hM, (saturates_of_describes hdescribes (describes_of_build hM) hts).determinize_eq⟩

/-- In `readsA`, reading `a` leads from `A` to `C` by way of `B`, and nothing stands in the way of
staying in `B`. -/
theorem determinize_addTransitions_readsA : ∃ M,
    (readsA.addTransitions [⟨"A", "a", "C"⟩, ⟨"B", "", "B"⟩]).build = .ok M ∧
      M.determinize = Nfa.readsA.determinize := by
  refine determinize_addTransitions build_readsA fun t ht => ?_
  rcases List.mem_pair.1 ht with rfl | rfl
  · exact ⟨⟨.ofNat 0, .symbol (.ofNat 0), .ofNat 2⟩, ⟨rfl, rfl, rfl⟩,
      show _ ∈ Nfa.epsilonClosure _ _ by decide +kernel⟩
  · exact ⟨⟨.ofNat 1, .epsilon, .ofNat 1⟩, ⟨rfl, rfl, rfl⟩,
      show _ ∈ Nfa.epsilonClosure _ _ by decide +kernel⟩

end Definition

end FiniteAutomata
