import FiniteAutomata.Definition.Build
import FiniteAutomata.Proofs.EpsilonReachability
import FiniteAutomata.SubsetConstruction

/-!
# The states that a word leads to

`N.Spells q w p`: some path from `q` to `p` spells the word `w` once its epsilons are erased. The
sets that the construction computes are the states that words lead to: `mem_run` for any set to
start from, `mem_reachable` for the start state. `N.stateAfter w` is the state of the deterministic
automaton that stands for them, the sink if there are none.

Reading a word in two parts is reading it whole (`run_append`), because every set on the way is
closed under epsilon transitions (`epsilonClosure_run`).
-/

namespace FiniteAutomata

namespace Nfa

variable {N : Nfa} {S T : StateSet} {u w : List Symbol} {a : Symbol} {q p : StateId}

/-- Some path from `q` to `p` spells `w`, its epsilons erased. -/
def Spells (N : Nfa) (q : StateId) (w : List Symbol) (p : StateId) : Prop :=
  ∃ labels, labels.reduceOption = w ∧ N.toEpsilonNFA.IsPath q p labels

theorem spells_iff : N.Spells q w p ↔ p ∈ N.toEpsilonNFA.evalFrom {q} w :=
  (εNFA.mem_evalFrom_iff_exists_path N.toEpsilonNFA).symm

/-! ## Sets along a word -/

theorem toSet_reach (N : Nfa) (S : StateSet) (a : Symbol) :
    (N.reach S a).toSet = N.toEpsilonNFA.stepSet S.toSet a := by
  ext p
  rw [reach, toSet_epsilonClosure, εNFA.mem_εClosure_iff_exists, εNFA.mem_stepSet_iff]
  refine ⟨fun ⟨r, hr, hp⟩ => ?_, fun ⟨q, hq, hp⟩ => ?_⟩
  · obtain ⟨q, hq, hqr⟩ := mem_moves.1 (StateSet.mem_toSet.1 hr)
    exact ⟨q, hq, (εNFA.mem_εClosure_iff_exists N.toEpsilonNFA).2 ⟨r, hqr, hp⟩⟩
  · obtain ⟨r, hqr, hp⟩ := (εNFA.mem_εClosure_iff_exists N.toEpsilonNFA).1 hp
    exact ⟨r, mem_moves.2 ⟨q, hq, hqr⟩, hp⟩

@[simp] theorem run_nil : N.run S [] = N.epsilonClosure S := rfl

theorem run_snoc (N : Nfa) (S : StateSet) (w : List Symbol) (a : Symbol) :
    N.run S (w ++ [a]) = N.reach (N.run S w) a := by
  rw [run, List.foldl_append, List.foldl_cons, List.foldl_nil, ← run]

theorem toSet_run (N : Nfa) (S : StateSet) (w : List Symbol) :
    (N.run S w).toSet = N.toEpsilonNFA.evalFrom S.toSet w := by
  induction w using List.reverseRecOn with
  | nil => exact toSet_epsilonClosure N S
  | append_singleton w a ih =>
    rw [run_snoc, toSet_reach, ih, εNFA.evalFrom_append_singleton]

/-- **A run is in the states that a path spelling the word leads to.** -/
theorem mem_run : p ∈ N.run S w ↔ ∃ q ∈ S, N.Spells q w p := by
  rw [← StateSet.mem_toSet, toSet_run, εNFA.mem_evalFrom_iff_exists]
  simp only [StateSet.mem_toSet, spells_iff]

@[simp] theorem epsilonClosure_run : N.epsilonClosure (N.run S w) = N.run S w := by
  induction w using List.reverseRecOn with
  | nil => exact epsilonClosure_epsilonClosure
  | append_singleton w a _ => rw [run_snoc]; exact epsilonClosure_epsilonClosure

theorem run_append : N.run S (u ++ w) = N.run (N.run S u) w :=
  calc N.run S (u ++ w) = w.foldl N.reach (N.run S u) := List.foldl_append
    _ = w.foldl N.reach (N.epsilonClosure (N.run S u)) := by rw [epsilonClosure_run]
    _ = N.run (N.run S u) w := rfl

theorem has_of_mem_reach (h : p ∈ N.reach S a) : N.states.Has p := by
  refine has_of_mem_epsilonClosure (fun r hr => ?_) h
  obtain ⟨q, -, hqr⟩ := mem_moves.1 hr
  exact has_of_mem_successors hqr

theorem has_of_mem_run (hS : ∀ q ∈ S, N.states.Has q) (h : p ∈ N.run S w) : N.states.Has p := by
  induction w using List.reverseRecOn generalizing p with
  | nil => exact has_of_mem_epsilonClosure hS h
  | append_singleton w a _ => exact has_of_mem_reach (run_snoc N S w a ▸ h)

theorem not_mem_reach_of_empty (hS : ∀ q, q ∉ S) : p ∉ N.reach S a := by
  intro hp
  refine absurd (epsilonClosure_subset (T := ∅) (fun r hr => ?_) (fun r hr => ?_) hp)
    (StateSet.not_mem_empty p)
  · obtain ⟨q, hq, -⟩ := mem_moves.1 hr
    exact absurd hq (hS q)
  · exact absurd hr (StateSet.not_mem_empty r)

/-! ## From the start state -/

/-- The states that `w` leads to from the start state. -/
def reachable (N : Nfa) (w : List Symbol) : StateSet := N.run (.singleton N.start) w

theorem mem_reachable : p ∈ N.reachable w ↔ N.Spells N.start w p := by
  simp [reachable, mem_run]

@[simp] theorem reachable_nil : N.reachable [] = N.initialSet := rfl

theorem reachable_snoc (N : Nfa) (w : List Symbol) (a : Symbol) :
    N.reachable (w ++ [a]) = N.reach (N.reachable w) a :=
  run_snoc N _ w a

theorem reachable_append : N.reachable (u ++ w) = N.run (N.reachable u) w := run_append

theorem start_mem_initialSet (N : Nfa) : N.start ∈ N.initialSet :=
  mem_epsilonClosure_of_mem (StateSet.mem_singleton.2 rfl)

theorem has_of_mem_reachable (h : p ∈ N.reachable w) : N.states.Has p :=
  has_of_mem_run (fun _ hq => StateSet.mem_singleton.1 hq ▸ N.start_has) h

end Nfa

/-- An automaton that reads `a`, after an epsilon transition, and nothing else. -/
def Nfa.readsA : Nfa :=
  Definition.assemble ⟨["A", "B", "C"], by decide, by decide⟩ ⟨["a"], by decide, by decide⟩
    [⟨⟨.ofNat 0, .epsilon, .ofNat 1⟩, by decide, trivial, by decide⟩,
      ⟨⟨.ofNat 1, .symbol (.ofNat 0), .ofNat 2⟩, by decide, Nat.zero_lt_one, by decide⟩]
    ⟨.ofNat 0, by decide⟩ [⟨.ofNat 2, by decide⟩]

/-- The definition of `readsA` by name. -/
def Definition.readsA : Definition where
  states := ["A", "B", "C"]
  symbols := ["a"]
  transitions := [⟨"A", "ε", "B"⟩, ⟨"B", "a", "C"⟩]
  start? := some "A"
  accepting := ["C"]

theorem Definition.build_readsA : readsA.build = .ok Nfa.readsA := rfl

theorem Nfa.spells_readsA : readsA.Spells readsA.start [.ofNat 0] (.ofNat 2) := by
  refine ⟨[none, some (.ofNat 0)], rfl, ?_⟩
  have h1 : (.ofNat 1 : StateId) ∈ readsA.toEpsilonNFA.step (.ofNat 0) none :=
    Relation.mem_successors.2 (Relation.holds_ofList.2 (by decide))
  have h2 : (.ofNat 2 : StateId) ∈ readsA.toEpsilonNFA.step (.ofNat 1) (some (.ofNat 0)) :=
    Relation.mem_successors.2 (Relation.holds_ofList.2 (by decide))
  exact .cons _ _ _ _ _ h1 (.cons _ _ _ _ _ h2 (.nil _))

/-! ## The states of the deterministic automaton -/

/-- The set that the state stands for, which is empty for the sink. -/
def DfaState.members : DfaState → StateSet
  | subset S => S
  | sink => ∅

theorem DfaState.isAcceptingFor_iff {s : DfaState} {A : StateSet} :
    s.isAcceptingFor A = true ↔ ∃ p ∈ A, p ∈ s.members := by
  cases s with
  | subset S =>
    unfold isAcceptingFor
    rw [Bool.not_eq_true', ← Bool.not_eq_true, StateSet.isDisjoint_iff]
    simp only [members, not_forall, not_not, exists_prop, and_comm]
  | sink =>
    refine iff_of_false Bool.false_ne_true fun hmem => ?_
    obtain ⟨p, -, hp⟩ := hmem
    exact StateSet.not_mem_empty p hp

namespace Construction

variable {S T : StateSet}

@[simp] theorem members_stateFor : (stateFor S).members = S := by
  unfold stateFor
  split
  · exact StateSet.ext fun q =>
      iff_of_false (StateSet.not_mem_empty q) (StateSet.isEmpty_iff.1 ‹_› q)
  · rfl

theorem stateFor_inj (h : stateFor S = stateFor T) : S = T := by
  rw [← members_stateFor (S := S), h, members_stateFor]

theorem stateFor_eq_sink_iff : stateFor S = .sink ↔ ∀ p, p ∉ S := by
  unfold stateFor
  rw [← StateSet.isEmpty_iff]
  split <;> simp [*]

theorem stateFor_eq_subset_iff : stateFor S = .subset T ↔ S = T ∧ ∃ p, p ∈ T := by
  unfold stateFor
  split
  · refine iff_of_false (fun h => nomatch h) fun ⟨hST, p, hp⟩ => ?_
    exact StateSet.isEmpty_iff.1 ‹_› p (hST ▸ hp)
  · rename_i h
    rw [StateSet.isEmpty_iff] at h
    simp only [not_forall, not_not] at h
    simp only [DfaState.subset.injEq]
    exact ⟨fun hST => ⟨hST, hST ▸ h⟩, And.left⟩

end Construction

namespace Nfa

variable {N : Nfa} {u w : List Symbol} {a : Symbol}

/-- The state of the deterministic automaton that `w` leads to. -/
def stateAfter (N : Nfa) (w : List Symbol) : DfaState := Construction.stateFor (N.reachable w)

@[simp] theorem members_stateAfter : (N.stateAfter w).members = N.reachable w :=
  Construction.members_stateFor

theorem stateAfter_nil (N : Nfa) : N.stateAfter [] = .subset N.initialSet :=
  Construction.stateFor_eq_subset_iff.2 ⟨rfl, _, N.start_mem_initialSet⟩

theorem stateAfter_snoc (N : Nfa) (w : List Symbol) (a : Symbol) :
    N.stateAfter (w ++ [a]) = Construction.stateFor (N.reach (N.stateAfter w).members a) := by
  rw [stateAfter, reachable_snoc, members_stateAfter]

theorem reach_eq_reachable {S : StateSet} (h : N.stateAfter w = .subset S) :
    N.reach S a = N.reachable (w ++ [a]) := by
  obtain ⟨rfl, -⟩ := Construction.stateFor_eq_subset_iff.1 h
  exact (reachable_snoc N w a).symm

/-- The sink leads to itself. -/
theorem stateAfter_snoc_of_sink (h : N.stateAfter w = .sink) : N.stateAfter (w ++ [a]) = .sink := by
  rw [stateAfter_snoc, h, Construction.stateFor_eq_sink_iff]
  exact fun _ => not_mem_reach_of_empty StateSet.not_mem_empty

/-- Words with the same states are continued alike. -/
theorem stateAfter_append_congr (h : N.stateAfter u = N.stateAfter w) (v : List Symbol) :
    N.stateAfter (u ++ v) = N.stateAfter (w ++ v) := by
  unfold stateAfter
  rw [reachable_append, reachable_append, Construction.stateFor_inj h]

end Nfa

end FiniteAutomata
