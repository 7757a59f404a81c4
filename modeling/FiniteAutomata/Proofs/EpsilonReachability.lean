import Mathlib.Computability.EpsilonNFA
import FiniteAutomata.Nfa.Closure

/-!
# Epsilon closures are epsilon reachability

`Nfa.toEpsilonNFA N` is the automaton `N` as a transition function into sets of states. The search
behind `Nfa.epsilonClosure` finds exactly the states that epsilon transitions lead to from the given
ones (`toSet_epsilonClosure`).

`EpsilonSearch.Inv` is kept by every visit (`EpsilonSearch.Inv.visit`): what is found is what has
been queued, each state once; it is reachable; and no epsilon transition leaves the states that are
done. The queue holds members of the given set and declared states only, so it cannot outgrow
`EpsilonSearch.bound` and the search ends with nothing pending (`EpsilonSearch.isIdle_run`).
-/

namespace FiniteAutomata

/-- The members as a set in the mathematical sense. -/
def StateSet.toSet (S : StateSet) : Set StateId := {q | q ∈ S}

@[simp] theorem StateSet.mem_toSet {S : StateSet} {q : StateId} : q ∈ S.toSet ↔ q ∈ S := Iff.rfl

/-- The label that reads the given symbol, if any. -/
def Label.ofOption : Option Symbol → Label
  | none => .epsilon
  | some a => .symbol a

/-- The automaton as a function from states and labels to sets of states. -/
def Nfa.toEpsilonNFA (N : Nfa) : εNFA Symbol StateId where
  step q l := {p | p ∈ N.successors q (.ofOption l)}
  start := {N.start}
  accept := {q | q ∈ N.accepting}

/-- Every state that some transition leads to is declared. -/
theorem Nfa.has_of_mem_successors {N : Nfa} {q p : StateId} {l : Label}
    (h : p ∈ N.successors q l) : N.states.Has p :=
  (N.transition_within ⟨q, l, p⟩ (Relation.mem_successors.1 h)).target_has

namespace EpsilonSearch

variable {N : Nfa} {S : StateSet} {s : EpsilonSearch}

/-! ## Discovering a state -/

/-- Every state that is found has been queued, once. -/
structure Exact (s : EpsilonSearch) : Prop where
  nodup : (s.queue.done ++ s.queue.pending).Nodup
  mem_iff : ∀ q, q ∈ s.queue.done ++ s.queue.pending ↔ q ∈ s.found

theorem mem_discover {p q : StateId} : q ∈ (s.discover p).found ↔ q = p ∨ q ∈ s.found := by
  obtain ⟨found, queue⟩ := s
  simp only [discover, Std.ExtTreeSet.containsThenInsert_snd, Std.ExtTreeSet.mem_insert,
    Std.LawfulEqOrd.compare_eq_iff_eq]
  exact or_congr eq_comm Iff.rfl

@[simp] theorem done_discover {p : StateId} : (s.discover p).queue.done = s.queue.done := by
  obtain ⟨found, queue⟩ := s
  simp only [discover, Std.ExtTreeSet.containsThenInsert_fst]
  split <;> simp

theorem Exact.insert (h : s.Exact) (p : StateId) : (s.discover p).Exact := by
  have hd := @done_discover s p
  have hm := @mem_discover s p
  obtain ⟨found, queue⟩ := s
  by_cases hp : p ∈ found
  · have hq : (discover ⟨found, queue⟩ p).queue = queue := by
      simp [discover, hp]
    refine ⟨by rw [hq]; exact h.nodup, fun q => ?_⟩
    rw [hq, h.mem_iff, hm]
    refine ⟨.inr, fun hmem => ?_⟩
    rcases hmem with rfl | hmem
    · exact hp
    · exact hmem
  · have hq : (discover ⟨found, queue⟩ p).queue = queue.push p := by
      simp [discover, hp]
    have hnew : p ∉ queue.done ++ queue.pending := fun hmem => hp ((h.mem_iff p).1 hmem)
    refine ⟨?_, fun q => ?_⟩
    · rw [hq, Worklist.done_push, Worklist.pending_push, ← List.append_assoc,
        ← List.concat_eq_append]
      exact h.nodup.concat hnew
    · rw [hq, hm, Worklist.done_push, Worklist.pending_push, ← List.append_assoc, List.mem_append,
        h.mem_iff, List.mem_singleton, or_comm]

theorem mem_foldl_discover {ps : List StateId} {q : StateId} :
    q ∈ (ps.foldl discover s).found ↔ q ∈ s.found ∨ q ∈ ps := by
  induction ps generalizing s with
  | nil => simp
  | cons p ps ih =>
    simp only [List.foldl_cons, ih, mem_discover, List.mem_cons, or_assoc, or_left_comm]

@[simp] theorem done_foldl_discover (ps : List StateId) :
    (ps.foldl discover s).queue.done = s.queue.done := by
  induction ps generalizing s with
  | nil => rfl
  | cons p ps ih => rw [List.foldl_cons, ih, done_discover]

theorem Exact.insertAll (h : s.Exact) (ps : List StateId) : (ps.foldl discover s).Exact := by
  induction ps generalizing s with
  | nil => exact h
  | cons p ps ih => exact ih (h.insert p)

/-! ## The search -/

/-- What holds before and after every visit of a search from `S`. -/
structure Inv (N : Nfa) (S : StateSet) (s : EpsilonSearch) : Prop where
  exact : s.Exact
  start : ∀ q ∈ S, q ∈ s.found
  reachable : ∀ q ∈ s.found, q ∈ N.toEpsilonNFA.εClosure S.toSet
  declared : ∀ q ∈ s.found, q ∈ S ∨ N.states.Has q
  closed : ∀ q ∈ s.queue.done, ∀ p ∈ N.successors q .epsilon, p ∈ s.found

theorem inv_init (N : Nfa) (S : StateSet) : (init S).Inv N S where
  exact := ⟨S.nodup_toList, fun q => by simp [init]⟩
  start q hq := StateSet.mem_toMarks.2 hq
  reachable q hq := .base q (StateSet.mem_toMarks.1 hq)
  declared q hq := .inl (StateSet.mem_toMarks.1 hq)
  closed q hq := absurd hq List.not_mem_nil

/-- A search that is not idle visits the first state pending. -/
theorem visit_eq (h : s.isIdle = false) :
    ∃ q queue, s.queue.pending = q :: queue.pending ∧ queue.done = s.queue.done ++ [q] ∧
      s.visit N = (N.successors q .epsilon).foldl discover ⟨s.found, queue⟩ := by
  cases hpop : s.queue.pop? with
  | none =>
    unfold isIdle at h
    rw [Worklist.isDone_iff.2 (Worklist.pop?_eq_none_iff.1 hpop)] at h
    cases h
  | some e =>
    obtain ⟨q, queue⟩ := e
    obtain ⟨hpending, hdone⟩ := Worklist.pop?_eq_some hpop
    exact ⟨q, queue, hpending, hdone, by rw [visit, hpop]⟩

theorem Inv.visit (h : s.Inv N S) (hidle : s.isIdle = false) :
    (s.visit N).Inv N S ∧ (s.visit N).queue.served = s.queue.served + 1 := by
  obtain ⟨q, queue, hpending, hdone, hvisit⟩ := visit_eq (N := N) hidle
  have hentries : queue.done ++ queue.pending = s.queue.done ++ s.queue.pending := by
    rw [hdone, hpending, List.append_assoc, List.singleton_append]
  have hq : q ∈ s.found := (h.exact.mem_iff q).1 (by rw [hpending]; simp)
  have hexact : Exact ⟨s.found, queue⟩ :=
    ⟨by rw [hentries]; exact h.exact.nodup, fun r => by rw [hentries]; exact h.exact.mem_iff r⟩
  rw [hvisit]
  refine ⟨?_, ?_⟩
  · refine ⟨hexact.insertAll _, fun r hr => mem_foldl_discover.2 (.inl (h.start r hr)),
      fun r hr => ?_, fun r hr => ?_, fun r hr p hp => ?_⟩
    · rcases mem_foldl_discover.1 hr with hr | hr
      · exact h.reachable r hr
      · exact εNFA.εClosure.step q r hr (h.reachable q hq)
    · rcases mem_foldl_discover.1 hr with hr | hr
      · exact h.declared r hr
      · exact .inr (Nfa.has_of_mem_successors hr)
    · rw [done_foldl_discover, hdone, List.mem_append, List.mem_singleton] at hr
      rcases hr with hr | rfl
      · exact mem_foldl_discover.2 (.inl (h.closed r hr p hp))
      · exact mem_foldl_discover.2 (.inr hp)
  · rw [← Worklist.length_done, done_foldl_discover, hdone, List.length_append,
      Worklist.length_done, List.length_singleton]

/-- The queue never outgrows the bound. -/
theorem Inv.length_le (h : s.Inv N S) :
    (s.queue.done ++ s.queue.pending).length ≤ bound N S := by
  have hsub : s.queue.done ++ s.queue.pending ⊆ S.toList ++ N.stateIds := by
    intro q hq
    rw [List.mem_append]
    exact (h.declared q ((h.exact.mem_iff q).1 hq)).imp id NameTable.mem_ids.2
  have hlen := h.exact.nodup.length_le_of_subset hsub
  rwa [@List.length_append _ S.toList, Nfa.stateIds, NameTable.length_ids] at hlen

theorem inv_run (N : Nfa) (S : StateSet) : (run N S).Inv N S :=
  exhaust_induction (fun _ hs hidle => (hs.visit hidle).1) (inv_init N S) _

/-- The search visits every state that it finds. -/
theorem isIdle_run (N : Nfa) (S : StateSet) : (run N S).isIdle = true := by
  refine idle_exhaust (P := Inv N S) (μ := fun s => bound N S - s.queue.served)
    (fun s hs hidle => ?_) (inv_init N S) (Nat.sub_le _ _)
  obtain ⟨hinv, hserved⟩ := hs.visit hidle
  refine ⟨hinv, ?_⟩
  obtain ⟨q, queue, hpending, -, -⟩ := visit_eq (N := N) hidle
  have hlen := hs.length_le
  rw [List.length_append, Worklist.length_done, hpending, List.length_cons] at hlen
  show bound N S - (s.visit N).queue.served < bound N S - s.queue.served
  rw [hserved]
  omega

/-- Each state found is done once, and nothing else is. -/
theorem done_run (N : Nfa) (S : StateSet) :
    (run N S).queue.done.Nodup ∧ ∀ q, q ∈ (run N S).queue.done ↔ q ∈ (run N S).found := by
  have hexact := (inv_run N S).exact
  have hpending : (run N S).queue.pending = [] := Worklist.isDone_iff.1 (isIdle_run N S)
  have hnodup := hexact.nodup
  have hmem := hexact.mem_iff
  rw [hpending, List.append_nil] at hnodup
  simp only [hpending, List.append_nil] at hmem
  exact ⟨hnodup, hmem⟩

end EpsilonSearch

/-! ## The closure -/

namespace Nfa

variable {N : Nfa} {S T : StateSet}

/-- **The epsilon closure is epsilon reachability.** -/
theorem toSet_epsilonClosure (N : Nfa) (S : StateSet) :
    (N.epsilonClosure S).toSet = N.toEpsilonNFA.εClosure S.toSet := by
  have hinv := EpsilonSearch.inv_run N S
  ext q
  rw [StateSet.mem_toSet, epsilonClosure, StateSet.mem_ofMarks]
  refine ⟨hinv.reachable q, fun hq => ?_⟩
  -- every state found is done, so what is found is closed
  induction hq with
  | base p hp => exact hinv.start p hp
  | step r p hp _ ih => exact hinv.closed r (((EpsilonSearch.done_run N S).2 r).2 ih) p hp

theorem mem_epsilonClosure_of_mem {q : StateId} (h : q ∈ S) : q ∈ N.epsilonClosure S := by
  rw [← StateSet.mem_toSet, toSet_epsilonClosure]
  exact .base q h

/-- No epsilon transition leaves the closure. -/
theorem mem_epsilonClosure_of_successor {q p : StateId} (hq : q ∈ N.epsilonClosure S)
    (hp : p ∈ N.successors q .epsilon) : p ∈ N.epsilonClosure S := by
  rw [← StateSet.mem_toSet, toSet_epsilonClosure] at hq ⊢
  exact εNFA.εClosure.step q p hp hq

/-- What holds of the given states and is passed on by epsilon transitions holds in the closure. -/
theorem epsilonClosure_induction {P : StateId → Prop} (hbase : ∀ q ∈ S, P q)
    (hstep : ∀ q ∈ N.epsilonClosure S, P q → ∀ p ∈ N.successors q .epsilon, P p) {q : StateId}
    (hq : q ∈ N.epsilonClosure S) : P q := by
  rw [← StateSet.mem_toSet, toSet_epsilonClosure] at hq
  induction hq with
  | base p hp => exact hbase p hp
  | step r p hp hr ih =>
    rw [← toSet_epsilonClosure] at hr
    exact hstep r hr ih p hp

/-- The closure is the least set of its kind. -/
theorem epsilonClosure_subset (hS : ∀ q ∈ S, q ∈ T)
    (hT : ∀ q ∈ T, ∀ p ∈ N.successors q .epsilon, p ∈ T) {q : StateId}
    (hq : q ∈ N.epsilonClosure S) : q ∈ T :=
  epsilonClosure_induction hS (fun q _ => hT q) hq

/-- Without epsilon transitions, a set is its own closure. -/
theorem epsilonClosure_eq_self (h : ∀ q p, p ∉ N.successors q .epsilon) :
    N.epsilonClosure S = S :=
  StateSet.ext fun _ => ⟨epsilonClosure_subset (fun _ hq => hq) fun q _ p hp => absurd hp (h q p),
    mem_epsilonClosure_of_mem⟩

/-- A closure is its own closure. -/
@[simp] theorem epsilonClosure_epsilonClosure :
    N.epsilonClosure (N.epsilonClosure S) = N.epsilonClosure S :=
  StateSet.ext fun _ =>
    ⟨epsilonClosure_subset (fun _ h => h) fun _ hq _ hp => mem_epsilonClosure_of_successor hq hp,
      mem_epsilonClosure_of_mem⟩

/-- A closure has declared states only, if the given set has. -/
theorem has_of_mem_epsilonClosure (hS : ∀ q ∈ S, N.states.Has q) {q : StateId}
    (hq : q ∈ N.epsilonClosure S) : N.states.Has q :=
  epsilonClosure_induction hS (fun _ _ _ _ hp => has_of_mem_successors hp) hq

end Nfa

end FiniteAutomata
