import FiniteAutomata.Proofs.EpsilonVisits
import FiniteAutomata.Proofs.ReachableSets

/-!
# Runs from a union of sets

A function of sets of states is `Additive` if its values on unions are the unions of its values, so
that its values on single states determine it (`Additive.eq_unionOver`). The image of a set under a
relation between states is additive, which settles closures and moves, and so is a composition of
additive functions. A run along a word is a composition of closures and moves (`Nfa.additive_run`).
-/

namespace FiniteAutomata

/-- The union of the sets that `f` gives for the members of `S`. -/
def StateSet.unionOver (f : StateId → StateSet) (S : StateSet) : StateSet :=
  S.toList.foldl (fun U q => U.union (f q)) ∅

namespace StateSet

variable {f : StateId → StateSet} {S U : StateSet} {qs : List StateId} {p : StateId}

theorem mem_foldl_union :
    p ∈ qs.foldl (fun U q => U.union (f q)) U ↔ p ∈ U ∨ ∃ q ∈ qs, p ∈ f q := by
  induction qs generalizing U with
  | nil => simp
  | cons q qs ih => simp only [List.foldl_cons, ih, mem_union, List.exists_mem_cons_iff, or_assoc]

theorem mem_unionOver : p ∈ S.unionOver f ↔ ∃ q ∈ S, p ∈ f q :=
  mem_foldl_union.trans (or_iff_right (not_mem_empty p))

@[simp] theorem unionOver_singleton : S.unionOver .singleton = S := by
  ext p
  simp [mem_unionOver]

end StateSet

/-! ## Additive functions -/

/-- The values on unions are the unions of the values. -/
structure Additive (f : StateSet → StateSet) : Prop where
  empty : f ∅ = ∅
  union : ∀ S T, f (S.union T) = (f S).union (f T)

namespace Additive

variable {f g : StateSet → StateSet}

/-- The image under a relation is additive. -/
theorem of_mem_iff {R : StateId → StateId → Prop} (h : ∀ S p, p ∈ f S ↔ ∃ q ∈ S, R q p) :
    Additive f where
  empty := by
    ext p
    refine iff_of_false (fun hp => ?_) (StateSet.not_mem_empty p)
    obtain ⟨q, hq, -⟩ := (h ∅ p).1 hp
    exact StateSet.not_mem_empty q hq
  union S T := by
    ext p
    simp only [h, StateSet.mem_union, or_and_right, exists_or]

theorem comp (hg : Additive g) (hf : Additive f) : Additive fun S => g (f S) where
  empty := by rw [hf.empty, hg.empty]
  union S T := by rw [hf.union, hg.union]

theorem unionOver (hf : Additive f) (g : StateId → StateSet) (S : StateSet) :
    f (S.unionOver g) = S.unionOver fun q => f (g q) :=
  calc f (S.toList.foldl (fun U q => U.union (g q)) ∅)
      = S.toList.foldl (fun U q => U.union (f (g q))) (f ∅) :=
        (List.foldl_hom f fun U q => (hf.union U (g q)).symm).symm
    _ = S.toList.foldl (fun U q => U.union (f (g q))) ∅ := by rw [hf.empty]

/-- An additive function is determined by its values on single states. -/
theorem eq_unionOver (hf : Additive f) (S : StateSet) :
    f S = S.unionOver fun q => f (.singleton q) :=
  calc f S = f (S.unionOver .singleton) := by rw [StateSet.unionOver_singleton]
    _ = S.unionOver fun q => f (.singleton q) := hf.unionOver _ S

end Additive

/-! ## Runs -/

namespace Nfa

variable (N : Nfa)

theorem additive_epsilonClosure : Additive N.epsilonClosure :=
  .of_mem_iff fun _ _ => mem_epsilonClosure_iff

theorem additive_moves (a : Symbol) : Additive fun S => N.moves S a :=
  .of_mem_iff fun _ _ => mem_moves

/-- One symbol of a run. -/
theorem additive_reach (a : Symbol) : Additive fun S => N.reach S a :=
  N.additive_epsilonClosure.comp (N.additive_moves a)

theorem additive_run (w : List Symbol) : Additive fun S => N.run S w := by
  induction w using List.reverseRecOn with
  | nil => exact N.additive_epsilonClosure
  | append_singleton w a ih =>
    simp only [run_snoc]
    exact (N.additive_reach a).comp ih

/-- **Running distributes over union**: a run from a union is the union of the runs, a run from the
empty set has no states, and so every run is the union of the runs from the single members of the
set, each of which has the states that paths spelling the word lead to. -/
theorem run_distributes :
    (∀ S T w, N.run (S.union T) w = (N.run S w).union (N.run T w)) ∧
    (∀ w, N.run ∅ w = ∅) ∧
    (∀ S w, N.run S w = S.unionOver fun q => N.run (.singleton q) w) ∧
    (∀ q w p, p ∈ N.run (.singleton q) w ↔ N.Spells q w p) := by
  refine ⟨fun S T w => (N.additive_run w).union S T, fun w => (N.additive_run w).empty,
    fun S w => (N.additive_run w).eq_unionOver S, fun q w p => ?_⟩
  rw [mem_run]
  simp only [StateSet.mem_singleton, exists_eq_left]

end Nfa

end FiniteAutomata
