import FiniteAutomata.Proofs.DeclaredParts
import FiniteAutomata.Proofs.SameKernel
import FiniteAutomata.Proofs.Totality

/-!
# Determinizing twice

A deterministic automaton can be declared again as a nondeterministic one, its states named by their
displayed ids (`Dfa.toDefinition`). `M.Mirrors D`: the automaton `M` has the states of `D` at the
same positions, with the same moves on symbols and no others. Then a word leads to one state of `M`
only (`Mirrors.stateAfter_eq`), so that `M` tells the same words apart as any automaton that `D` is
the determinized form of, and determinizing `M` gives `D` back, with each state standing for itself
(`Nfa.determinize_determinize`).
-/

namespace FiniteAutomata

/-! ## The automaton declared again -/

namespace Dfa

/-- The automaton by name, its states under their displayed ids. -/
def toDefinition (D : Dfa) : Definition where
  states := D.stateIds.map toString
  symbols := D.alphabet.names
  transitions := D.transitions.map fun t =>
    ⟨toString t.source, D.alphabet.text t.symbol, toString t.target⟩
  start? := some (toString D.start)
  accepting := D.acceptingStates.map toString

/-- The parts that are declared by `toDefinition`. -/
def parts (D : Dfa) : Parts where
  states := .displayed .dfaState D.size
  alphabet := D.alphabet
  transitions := D.transitions.map fun t => ⟨t.source.recast, .symbol t.symbol, t.target.recast⟩
  start := D.start.recast
  accepting := D.acceptingStates.map Index.recast

variable {D : Dfa} {i : DfaStateId}

theorem run_snoc (D : Dfa) (i : DfaStateId) (w : List Symbol) (a : Symbol) :
    D.run i (w ++ [a]) = D.run i w >>= fun k => D.successor k a := by
  simp only [run, List.foldlM_append, List.foldlM_cons, List.foldlM_nil, bind_pure]

theorem mem_acceptingStates (h : D.size ≤ Index.capacity) :
    i ∈ D.acceptingStates ↔ i.toNat < D.size ∧ D.acceptsAt i = true := by
  rw [acceptingStates, List.mem_filter]
  exact and_congr_left fun _ => Index.mem_first h

section

variable (hD : D.Complete)
include hD

theorem toDefinition_eq (hpos : 1 ≤ D.size) : D.toDefinition = D.parts.toDefinition := by
  have htext {i : DfaStateId} (hi : i.toNat < D.size) : toString i = D.parts.states.text i.recast :=
    (NameTable.text_displayed hD.size_le hi).symm
  have htransitions : D.toDefinition.transitions = D.parts.toDefinition.transitions := by
    refine (List.map_congr_left fun t ht => ?_).trans List.map_map.symm
    obtain ⟨hsource, -, htarget⟩ := hD.lt_of_mem_transitions ht
    rw [htext hsource, htext htarget]
    rfl
  have haccepting : D.toDefinition.accepting = D.parts.toDefinition.accepting := by
    refine (List.map_congr_left fun i hi => ?_).trans List.map_map.symm
    exact htext ((mem_acceptingStates hD.size_le).1 hi).1
  have hstates : D.toDefinition.states = D.parts.toDefinition.states :=
    (NameTable.names_displayed hD.size_le).symm
  have hstart : D.toDefinition.start? = D.parts.toDefinition.start? :=
    congrArg some (htext (i := D.start) hpos)
  rw [Definition.mk.injEq]
  exact ⟨hstates, rfl, htransitions, hstart, haccepting⟩

theorem wellFormed_parts (hnames : ∀ name ∈ D.alphabet.names, isReserved name = false)
    (hpos : 1 ≤ D.size) : D.parts.WellFormed := by
  have hhas {i : DfaStateId} (hi : i.toNat < D.size) : D.parts.states.Has i.recast :=
    (NameTable.has_displayed hD.size_le).2 hi
  refine ⟨fun name hname => ?_, fun u hu => ?_, hhas (i := D.start) hpos, fun q hq => ?_⟩
  · exact hname.elim (NameTable.not_reserved_displayed hD.size_le) (hnames name)
  · obtain ⟨t, ht, rfl⟩ := List.mem_map.1 hu
    obtain ⟨hsource, hsymbol, htarget⟩ := hD.lt_of_mem_transitions ht
    exact ⟨hhas hsource, hsymbol, hhas htarget⟩
  · obtain ⟨i, hi, rfl⟩ := List.mem_map.1 hq
    exact hhas ((mem_acceptingStates hD.size_le).1 hi).1

end

end Dfa

/-- The states of `M` are those of `D`, at the same positions and with the same moves. -/
structure Nfa.Mirrors (M : Nfa) (D : Dfa) : Prop where
  alphabet_eq : M.alphabet = D.alphabet
  start_eq : M.start = D.start.recast
  successors_iff : ∀ q l p, p ∈ M.successors q l ↔
    ∃ a, l = .symbol a ∧ D.successor q.recast a = .ok p.recast
  accepting_iff : ∀ q, q ∈ M.accepting ↔ q.toNat < D.size ∧ D.acceptsAt q.recast = true

theorem Dfa.Complete.mirrors {D : Dfa} {M : Nfa} (hD : D.Complete) (hM : M.HasParts D.parts) :
    M.Mirrors D := by
  refine ⟨hM.alphabet_eq, hM.start_eq, fun q l p => ?_, fun q => ?_⟩
  · rw [hM.mem_successors_iff, parts, List.mem_map]
    constructor
    · rintro ⟨t, ht, heq⟩
      rw [Transition.mk.injEq] at heq
      obtain ⟨rfl, rfl, rfl⟩ := heq
      exact ⟨t.symbol, rfl, hD.mem_transitions.1 ht⟩
    · rintro ⟨a, rfl, hsucc⟩
      exact ⟨⟨q.recast, a, p.recast⟩, hD.mem_transitions.2 hsucc, rfl⟩
  · rw [hM.mem_accepting_iff, parts, List.mem_map]
    constructor
    · rintro ⟨i, hi, rfl⟩
      exact (mem_acceptingStates hD.size_le).1 hi
    · exact fun hq => ⟨q.recast, (mem_acceptingStates hD.size_le).2 hq, rfl⟩

/-! ## Its determinized form -/

namespace Nfa.Mirrors

variable {N M : Nfa} {D : Dfa} {w : List Symbol} {i : DfaStateId} {k : StateId} {a : Symbol}

section

variable (h : M.Mirrors D)
include h

theorem epsilonClosure_eq (S : StateSet) : M.epsilonClosure S = S := by
  refine epsilonClosure_eq_self fun q p hp => ?_
  obtain ⟨a, ha, -⟩ := (h.successors_iff q .epsilon p).1 hp
  cases ha

theorem reach_singleton (hi : D.successor k.recast a = .ok i) :
    M.reach (.singleton k) a = .singleton i.recast := by
  rw [reach, h.epsilonClosure_eq]
  refine StateSet.ext fun p => ?_
  simp only [mem_moves, StateSet.mem_singleton, exists_eq_left, h.successors_iff,
    Label.symbol.injEq, exists_eq_left', hi, Except.ok.injEq]
  exact ⟨fun hp => hp ▸ rfl, fun hp => hp ▸ rfl⟩

/-- **Where `D` is in a state, its mirror is in that state alone.** -/
theorem reachable_eq (hi : D.run D.start w = .ok i) : M.reachable w = .singleton i.recast := by
  induction w using List.reverseRecOn generalizing i with
  | nil =>
    obtain rfl : D.start = i := Except.ok.inj hi
    rw [reachable_nil, initialSet, h.epsilonClosure_eq, h.start_eq]
  | append_singleton w a ih =>
    rw [Dfa.run_snoc, bind_eq_ok_iff] at hi
    obtain ⟨k, hk, hi⟩ := hi
    rw [reachable_snoc, ih hk]
    exact h.reach_singleton hi

theorem stateAfter_eq (hi : D.run D.start w = .ok i) :
    M.stateAfter w = .subset (.singleton i.recast) :=
  Construction.stateFor_eq_subset_iff.2 ⟨h.reachable_eq hi, _, StateSet.mem_singleton.2 rfl⟩

theorem isAcceptingFor_eq (hi : i.toNat < D.size) :
    (DfaState.subset (.singleton i.recast)).isAcceptingFor M.accepting = D.acceptsAt i := by
  rw [Bool.eq_iff_iff, DfaState.isAcceptingFor_iff]
  simp only [DfaState.members, StateSet.mem_singleton, exists_eq_right, h.accepting_iff,
    Index.toNat_recast, hi, true_and, Index.recast_recast, Index.recast_self]

end

section

variable (h : M.Mirrors N.determinize) (hcap : N.determinize.size ≤ Index.capacity)
include h hcap

/-- A word leads to the state of the same position in both automata. -/
theorem exists_run (hw : ∀ a ∈ w, N.alphabet.Has a) : ∃ i,
    N.determinize.state i = .ok (N.stateAfter w) ∧
      M.stateAfter w = .subset (.singleton i.recast) := by
  obtain ⟨i, hi, hstate⟩ := run_determinize hcap (state_start_determinize N) hw
  exact ⟨i, hstate, h.stateAfter_eq hi⟩

theorem sameKernel : SameKernel N M := by
  refine ⟨congrArg NameTable.size h.alphabet_eq.symm, fun u v hu hv => ?_⟩
  obtain ⟨i, hi, hi'⟩ := h.exists_run hcap hu
  obtain ⟨j, hj, hj'⟩ := h.exists_run hcap hv
  rw [hi', hj', DfaState.subset.injEq]
  constructor
  · intro huv
    rw [huv] at hi
    rw [eq_of_state_eq hcap hi hj]
  · intro hij
    have hmem : (i.recast : StateId) ∈ StateSet.singleton j.recast :=
      hij ▸ StateSet.mem_singleton.2 rfl
    obtain rfl : i = j := Index.recast_inj.1 (StateSet.mem_singleton.1 hmem)
    exact Except.ok.inj (hi.symm.trans hj)

theorem isAccepting_eq (i : DfaStateId) :
    N.determinize.isAccepting i = M.determinize.isAccepting i := by
  refine (h.sameKernel hcap).isAccepting_eq (fun w hw => ?_) i
  obtain ⟨i, hi, hi'⟩ := h.exists_run hcap hw
  rw [hi', h.isAcceptingFor_eq (Dfa.lt_size_of_state hi), Dfa.acceptsAt,
    Index.read_eq_ok_iff.1 (isAccepting_determinize hi), Option.getD_some]

/-- Each state stands for itself alone. -/
theorem state_eq (hi : i.toNat < N.determinize.size) :
    M.determinize.state i = .ok (.subset (.singleton i.recast)) := by
  obtain ⟨u, hu⟩ : ∃ u, N.words[i.toNat]? = some u :=
    ⟨_, List.getElem?_eq_getElem (N.size_determinize ▸ hi)⟩
  obtain ⟨j, hj, hj'⟩ := h.exists_run hcap fun a ha => has_of_mem_words (List.mem_of_getElem? hu) ha
  obtain rfl : i = j := eq_of_state_eq hcap (state_of_getElem?_words hu) hj
  rw [(h.sameKernel hcap).words_eq] at hu
  rw [state_of_getElem?_words hu, hj']

theorem sink?_eq_none : M.determinize.sink? = none := by
  have hsize := (h.sameKernel hcap).size_eq
  rw [Option.eq_none_iff_forall_ne_some]
  intro i hi
  rw [sink?_determinize (hsize ▸ hcap)] at hi
  have hlt := Dfa.lt_size_of_state hi
  rw [← hsize] at hlt
  cases hi.symm.trans (h.state_eq hcap hlt)

end

end Nfa.Mirrors

/-- **Determinizing a determinized automaton changes nothing** but what the states stand for: each
stands for itself, and what was the sink is an ordinary state. -/
theorem Nfa.determinize_determinize (d : Definition) (N : Nfa) (hN : d.build = .ok N)
    (hcap : N.determinize.size ≤ Index.capacity) :
    ∃ M, N.determinize.toDefinition.build = .ok M ∧
      M.determinize.alphabet = N.determinize.alphabet ∧
      M.determinize.size = N.determinize.size ∧
      (∀ i a, M.determinize.successor i a = N.determinize.successor i a) ∧
      (∀ i, M.determinize.isAccepting i = N.determinize.isAccepting i) ∧
      (∀ i : DfaStateId, i.toNat < N.determinize.size →
        M.determinize.state i = .ok (.subset (.singleton i.recast))) ∧
      M.determinize.sink? = none := by
  have hD := complete_determinize hcap
  have hnames : ∀ name ∈ N.determinize.alphabet.names, isReserved name = false := by
    intro name hname
    refine (Definition.exists_build_iff.1 ⟨N, hN⟩).not_reserved name (.inr ?_)
    apply NameTable.mem_of_mem_names_ofList (s := .symbol)
    rwa [← (Definition.describes_of_build hN).alphabet_eq]
  have hpos := N.size_determinize_pos
  obtain ⟨M, hM, hparts⟩ := (Dfa.wellFormed_parts hD hnames hpos).exists_build
  rw [← Dfa.toDefinition_eq hD hpos] at hM
  have hmirrors := hD.mirrors hparts
  have hkernel := hmirrors.sameKernel hcap
  exact ⟨M, hM, hmirrors.alphabet_eq, hkernel.size_eq.symm,
    fun i a => (hkernel.successor_eq hcap i a).symm,
    fun i => (hmirrors.isAccepting_eq hcap i).symm,
    fun i hi => hmirrors.state_eq hcap hi, hmirrors.sink?_eq_none hcap⟩

/-- The sink of `readsA` is the state `d2` of the second automaton. -/
theorem Nfa.determinize_determinize_readsA : readsA.determinize.size ≤ Index.capacity ∧
    readsA.determinize.sink? = some (.ofNat 2) ∧
    ∃ M, readsA.determinize.toDefinition.build = .ok M ∧ M.determinize.sink? = none ∧
      M.determinize.state (.ofNat 2) = .ok (.subset (.singleton (.ofNat 2))) := by
  have hcap : readsA.determinize.size ≤ Index.capacity := size_determinize_le_capacity (by decide)
  obtain ⟨M, hM, -, -, -, -, hstate, hsink⟩ :=
    determinize_determinize Definition.readsA readsA Definition.build_readsA hcap
  exact ⟨hcap, by decide +kernel, M, hM, hsink, hstate (.ofNat 2) (by decide +kernel)⟩

end FiniteAutomata
