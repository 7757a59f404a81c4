import Mathlib.Data.Set.Function
import FiniteAutomata.Proofs.SameKernel

/-!
# Isomorphic automata

`N.Iso M h`: the map `h` takes the states of `N` that some path leads to from the start
(`Nfa.Accessible`) one to one to those of `M`, and keeps the start, the transitions among them and
which of them accept. Then every word leads in `M` to the image of where it leads in `N`
(`Iso.reachable_eq`). Images of different sets differ, so both automata tell the same words apart
(`Iso.sameKernel`), and the determinized automata differ in nothing but the sets that their states
stand for (`Iso.sameTables`, `Iso.states_eq`).
-/

namespace FiniteAutomata

/-! ## Images of sets -/

/-- The set of the values of `h` on the members. -/
def StateSet.image (h : StateId → StateId) (S : StateSet) : StateSet := .ofList (S.toList.map h)

@[simp] theorem StateSet.mem_image {h : StateId → StateId} {S : StateSet} {p : StateId} :
    p ∈ S.image h ↔ ∃ q ∈ S, h q = p := by
  simp [image]

/-- The state that stands for the image of the set. -/
def DfaState.image (h : StateId → StateId) : DfaState → DfaState
  | subset S => subset (S.image h)
  | sink => sink

theorem Construction.stateFor_image (h : StateId → StateId) (S : StateSet) :
    stateFor (S.image h) = (stateFor S).image h := by
  have hempty : (S.image h).isEmpty = S.isEmpty := by
    rw [Bool.eq_iff_iff, StateSet.isEmpty_iff, StateSet.isEmpty_iff]
    simp
  unfold stateFor
  rw [hempty]
  split <;> rfl

/-- The automata have the same ids, rows, accepting states and sink. -/
structure Dfa.SameTables (D E : Dfa) : Prop where
  size_eq : D.size = E.size
  successor_eq : ∀ i a, D.successor i a = E.successor i a
  isAccepting_eq : ∀ i, D.isAccepting i = E.isAccepting i
  sink?_eq : D.sink? = E.sink?

namespace Nfa

/-! ## Accessible states -/

/-- Some path leads from the start state to the given one. -/
inductive Accessible (N : Nfa) : StateId → Prop
  | start : N.Accessible N.start
  | step {q p : StateId} {l : Label} :
    N.Accessible q → p ∈ N.successors q l → N.Accessible p

variable {N M : Nfa} {S T : StateSet} {w : List Symbol} {a : Symbol} {p q : StateId}

theorem accessible_of_mem_epsilonClosure (hS : ∀ q ∈ S, N.Accessible q)
    (hp : p ∈ N.epsilonClosure S) : N.Accessible p :=
  epsilonClosure_induction hS (fun _ _ hq _ hp => hq.step hp) hp

theorem accessible_of_mem_moves (hS : ∀ q ∈ S, N.Accessible q) (hp : p ∈ N.moves S a) :
    N.Accessible p := by
  obtain ⟨q, hq, hqp⟩ := mem_moves.1 hp
  exact (hS q hq).step hqp

theorem accessible_of_mem_reachable (hp : p ∈ N.reachable w) : N.Accessible p := by
  induction w using List.reverseRecOn generalizing p with
  | nil =>
    refine accessible_of_mem_epsilonClosure (fun q hq => ?_) hp
    exact StateSet.mem_singleton.1 hq ▸ .start
  | append_singleton w a ih =>
    rw [reachable_snoc] at hp
    exact accessible_of_mem_epsilonClosure (fun q hq =>
      accessible_of_mem_moves (fun _ => ih) hq) hp

/-! ## Isomorphisms -/

/-- The accessible states of `N` correspond to those of `M` by `h` (module doc). -/
structure Iso (N M : Nfa) (h : StateId → StateId) : Prop where
  bijOn : Set.BijOn h {q | N.Accessible q} {p | M.Accessible p}
  start : h N.start = M.start
  successors_iff : ∀ q p l, N.Accessible q → N.Accessible p →
    (p ∈ N.successors q l ↔ h p ∈ M.successors (h q) l)
  accepting_iff : ∀ q, N.Accessible q → (q ∈ N.accepting ↔ h q ∈ M.accepting)

namespace Iso

variable {h : StateId → StateId} (hiso : N.Iso M h)
include hiso

/-- A move of `M` from the image of a state is the image of a move of `N`. -/
theorem mem_successors_iff {l : Label} (hq : N.Accessible q) :
    p ∈ M.successors (h q) l ↔ ∃ r ∈ N.successors q l, h r = p := by
  constructor
  · intro hp
    have hacc : M.Accessible p := .step (hiso.bijOn.mapsTo hq) hp
    obtain ⟨r, hr, rfl⟩ := hiso.bijOn.surjOn hacc
    exact ⟨r, (hiso.successors_iff q r l hq hr).2 hp, rfl⟩
  · rintro ⟨r, hr, rfl⟩
    exact (hiso.successors_iff q r l hq (hq.step hr)).1 hr

theorem epsilonClosure_image (hS : ∀ q ∈ S, N.Accessible q) :
    M.epsilonClosure (S.image h) = (N.epsilonClosure S).image h := by
  refine StateSet.ext fun p => ⟨fun hp => ?_, fun hp => ?_⟩
  · refine epsilonClosure_subset (fun r hr => ?_) (fun r hr p hp => ?_) hp
    · obtain ⟨q, hq, rfl⟩ := StateSet.mem_image.1 hr
      exact StateSet.mem_image.2 ⟨q, mem_epsilonClosure_of_mem hq, rfl⟩
    · obtain ⟨q, hq, rfl⟩ := StateSet.mem_image.1 hr
      obtain ⟨r, hr, rfl⟩ :=
        (hiso.mem_successors_iff (accessible_of_mem_epsilonClosure hS hq)).1 hp
      exact StateSet.mem_image.2 ⟨r, mem_epsilonClosure_of_successor hq hr, rfl⟩
  · obtain ⟨q, hq, rfl⟩ := StateSet.mem_image.1 hp
    refine epsilonClosure_induction (P := fun q => h q ∈ M.epsilonClosure (S.image h))
      (fun q hq => ?_) (fun q hq ih r hr => ?_) hq
    · exact mem_epsilonClosure_of_mem (StateSet.mem_image.2 ⟨q, hq, rfl⟩)
    · have hacc := accessible_of_mem_epsilonClosure hS hq
      exact mem_epsilonClosure_of_successor ih ((hiso.mem_successors_iff hacc).2 ⟨r, hr, rfl⟩)

theorem moves_image (hS : ∀ q ∈ S, N.Accessible q) (a : Symbol) :
    M.moves (S.image h) a = (N.moves S a).image h := by
  refine StateSet.ext fun p => ?_
  rw [mem_moves, StateSet.mem_image]
  constructor
  · rintro ⟨_, hr, hp⟩
    obtain ⟨q, hq, rfl⟩ := StateSet.mem_image.1 hr
    obtain ⟨r, hr, rfl⟩ := (hiso.mem_successors_iff (hS q hq)).1 hp
    exact ⟨r, mem_moves.2 ⟨q, hq, hr⟩, rfl⟩
  · rintro ⟨r, hr, rfl⟩
    obtain ⟨q, hq, hqr⟩ := mem_moves.1 hr
    exact ⟨h q, StateSet.mem_image.2 ⟨q, hq, rfl⟩,
      (hiso.mem_successors_iff (hS q hq)).2 ⟨r, hqr, rfl⟩⟩

/-- **Words lead to images**: where a word leads in `M` is the image of where it leads in `N`. -/
theorem reachable_eq (w : List Symbol) : M.reachable w = (N.reachable w).image h := by
  induction w using List.reverseRecOn with
  | nil =>
    have hstart : StateSet.singleton M.start = (StateSet.singleton N.start).image h :=
      StateSet.ext fun p => by simp [← hiso.start, eq_comm]
    have hacc : ∀ q ∈ StateSet.singleton N.start, N.Accessible q :=
      fun q hq => StateSet.mem_singleton.1 hq ▸ .start
    rw [reachable_nil, reachable_nil, initialSet, hstart, hiso.epsilonClosure_image hacc]
    rfl
  | append_singleton w a ih =>
    have hacc : ∀ q ∈ N.reachable w, N.Accessible q := fun _ => accessible_of_mem_reachable
    rw [reachable_snoc, reachable_snoc, ih, reach, reach, hiso.moves_image hacc,
      hiso.epsilonClosure_image fun _ => accessible_of_mem_moves hacc]

theorem stateAfter_eq (w : List Symbol) : M.stateAfter w = (N.stateAfter w).image h := by
  rw [stateAfter, hiso.reachable_eq, Construction.stateFor_image, stateAfter]

theorem image_inj (hS : ∀ q ∈ S, N.Accessible q) (hT : ∀ q ∈ T, N.Accessible q)
    (heq : S.image h = T.image h) : S = T := by
  have hsub : ∀ {S T : StateSet}, (∀ q ∈ S, N.Accessible q) → (∀ q ∈ T, N.Accessible q) →
      S.image h = T.image h → ∀ q ∈ S, q ∈ T := by
    intro S T hS hT heq q hq
    have hmem : h q ∈ T.image h := heq ▸ StateSet.mem_image.2 ⟨q, hq, rfl⟩
    obtain ⟨p, hp, hpq⟩ := StateSet.mem_image.1 hmem
    exact hiso.bijOn.injOn (hT p hp) (hS q hq) hpq ▸ hp
  exact StateSet.ext fun q => ⟨hsub hS hT heq q, hsub hT hS heq.symm q⟩

theorem sameKernel (hsymbols : N.alphabet.size = M.alphabet.size) : SameKernel N M := by
  refine ⟨hsymbols, fun u v _ _ => ?_⟩
  constructor
  · intro heq
    rw [hiso.stateAfter_eq, hiso.stateAfter_eq, heq]
  · intro heq
    have himage : (N.reachable u).image h = (N.reachable v).image h := by
      rw [← hiso.reachable_eq, ← hiso.reachable_eq]
      exact Construction.stateFor_inj heq
    exact congrArg Construction.stateFor (hiso.image_inj
      (fun _ => accessible_of_mem_reachable) (fun _ => accessible_of_mem_reachable) himage)

theorem isAcceptingFor_eq (w : List Symbol) :
    (N.stateAfter w).isAcceptingFor N.accepting = (M.stateAfter w).isAcceptingFor M.accepting := by
  rw [Bool.eq_iff_iff, DfaState.isAcceptingFor_iff, DfaState.isAcceptingFor_iff,
    members_stateAfter, members_stateAfter, hiso.reachable_eq]
  constructor
  · rintro ⟨q, hq, hmem⟩
    have hacc := accessible_of_mem_reachable hmem
    exact ⟨h q, (hiso.accepting_iff q hacc).1 hq, StateSet.mem_image.2 ⟨q, hmem, rfl⟩⟩
  · rintro ⟨_, hq, hmem⟩
    obtain ⟨q, hqw, rfl⟩ := StateSet.mem_image.1 hmem
    exact ⟨q, (hiso.accepting_iff q (accessible_of_mem_reachable hqw)).2 hq, hqw⟩

/-- **The states stand for the images** of the sets that the states of `N.determinize` stand for. -/
theorem states_eq (hsymbols : N.alphabet.size = M.alphabet.size) :
    M.determinize.states = N.determinize.states.map (·.image h) := by
  refine Array.ext_getElem? fun n => ?_
  rw [Array.getElem?_map, getElem?_states_determinize, getElem?_states_determinize,
    ← (hiso.sameKernel hsymbols).words_eq, Option.map_map]
  exact Option.map_congr fun u _ => hiso.stateAfter_eq u

theorem sink?_eq (hsymbols : N.alphabet.size = M.alphabet.size) :
    N.determinize.sink? = M.determinize.sink? := by
  have hsink : ∀ s : DfaState, s.image h = .sink ↔ s = .sink := by
    intro s
    cases s <;> simp [DfaState.image]
  refine Option.ext fun i => ?_
  simp only [sink?_determinize_iff, hiso.states_eq hsymbols, Array.getElem?_map,
    Option.map_eq_some_iff, hsink, exists_eq_right]

theorem sameTables (hsymbols : N.alphabet.size = M.alphabet.size)
    (hcap : N.determinize.size ≤ Index.capacity) :
    N.determinize.SameTables M.determinize := by
  have hkernel := hiso.sameKernel hsymbols
  exact ⟨hkernel.size_eq, hkernel.successor_eq hcap,
    hkernel.isAccepting_eq fun w _ => hiso.isAcceptingFor_eq w, hiso.sink?_eq hsymbols⟩

end Iso

end Nfa

end FiniteAutomata
