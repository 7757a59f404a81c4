import FiniteAutomata.Definition.Build
import FiniteAutomata.Proofs.EpsilonReachability

/-!
# A search for a closure visits each state once

The epsilon closure of a set is what zero or more epsilon transitions lead to from its members
(`Nfa.mem_epsilonClosure_iff`). The search for it is a loop that visits one state in each pass, and
`VisitsOnce` says that these are the states of the closure, each of them once. The loop has no bound
on its passes: it ends because the states on record are distinct and belong to the closure.

None of this depends on which of the states found is visited next. `EpsilonSearch` takes the one
that was found first, and `StackSearch` the one that was found last: both visit the states of the
closure (`EpsilonSearch.visitsOnce_run`, `StackSearch.exists_visitsOnce`).
-/

namespace FiniteAutomata

/-! ## Reachability -/

namespace Nfa

variable {N : Nfa} {S T : StateSet} {q p : StateId}

/-- Zero or more epsilon transitions lead from `q` to `p`. -/
def EpsilonReaches (N : Nfa) (q p : StateId) : Prop :=
  Relation.ReflTransGen (fun r r' => ⟨r, .epsilon, r'⟩ ∈ N.transitions) q p

/-- No epsilon transition leaves `T`. -/
def EpsilonClosed (N : Nfa) (T : StateSet) : Prop :=
  ∀ t ∈ N.transitions, t.label = .epsilon → t.source ∈ T → t.target ∈ T

instance (N : Nfa) (T : StateSet) : Decidable (N.EpsilonClosed T) :=
  inferInstanceAs
    (Decidable (∀ t ∈ N.transitions, t.label = .epsilon → t.source ∈ T → t.target ∈ T))

theorem epsilonClosed_iff :
    N.EpsilonClosed T ↔ ∀ q ∈ T, ∀ p ∈ N.successors q .epsilon, p ∈ T := by
  constructor
  · intro h q hq p hp
    exact h ⟨q, .epsilon, p⟩ (mem_transitions.2 hp) rfl hq
  · rintro h ⟨q, l, p⟩ ht rfl hq
    exact h q hq p (mem_transitions.1 ht)

theorem mem_epsilonClosure_iff : p ∈ N.epsilonClosure S ↔ ∃ q ∈ S, N.EpsilonReaches q p := by
  constructor
  · refine epsilonClosure_induction (P := fun p => ∃ q ∈ S, N.EpsilonReaches q p)
      (fun q hq => ⟨q, hq, .refl⟩) fun r _ hr p hp => ?_
    obtain ⟨q, hq, hreach⟩ := hr
    exact ⟨q, hq, hreach.tail (mem_transitions.2 hp)⟩
  · rintro ⟨q, hq, hreach⟩
    induction hreach with
    | refl => exact mem_epsilonClosure_of_mem hq
    | tail _ hp ih => exact mem_epsilonClosure_of_successor ih (mem_transitions.1 hp)

end Nfa

/-! ## One state in each pass -/

/-- The loop from `x` ends at `y`, and its passes visit the members of `T`, each once. -/
def VisitsOnce {σ : Type} (idle : σ → Bool) (step : σ → σ) (next? : σ → Option StateId) (x y : σ)
    (T : StateSet) : Prop :=
  ∃ (passes : List σ) (visits : List StateId), Loop idle step x passes y ∧
    passes.map next? = visits.map some ∧ visits.Nodup ∧ (∀ q, q ∈ visits ↔ q ∈ T) ∧
    passes.length = T.size

theorem VisitsOnce.intro {σ : Type} {idle : σ → Bool} {step : σ → σ}
    {next? : σ → Option StateId} {x y : σ} {T : StateSet} {passes : List σ}
    {visits : List StateId} (hloop : Loop idle step x passes y)
    (hvisits : passes.map next? = visits.map some) (hnodup : visits.Nodup)
    (hmem : ∀ q, q ∈ visits ↔ q ∈ T) : VisitsOnce idle step next? x y T := by
  refine ⟨passes, visits, hloop, hvisits, hnodup, hmem, ?_⟩
  have hperm : visits.Perm T.toList := (List.perm_ext_iff_of_nodup hnodup T.nodup_toList).2 hmem
  have hlength := congrArg List.length hvisits
  rw [List.length_map, List.length_map] at hlength
  exact hlength.trans hperm.length_eq

/-- **The search visits each state of the closure once.** -/
theorem EpsilonSearch.visitsOnce_run (N : Nfa) (S : StateSet) :
    VisitsOnce isIdle (visit N) (·.queue.next?) (init S) (run N S) (N.epsilonClosure S) := by
  have hstep : ∀ s, Inv N S s → s.queue.isDone = false →
      Inv N S (s.visit N) ∧ s.queue.served < bound N S := by
    intro s hs hidle
    obtain ⟨hnext, hserved⟩ := hs.visit hidle
    have hlength := hnext.length_le
    rw [List.length_append, Worklist.length_done, hserved] at hlength
    exact ⟨hnext, by omega⟩
  have hserve : ∀ (s : EpsilonSearch) q queue, s.queue.pop? = some (q, queue) →
      (s.visit N).queue.done = queue.done := by
    intro s q queue hpop
    rw [visit, hpop]
    exact done_foldl_discover _
  obtain ⟨passes, hloop, hvisits⟩ := exists_loop_queue hstep hserve (inv_init N S) rfl
  obtain ⟨hnodup, hmem⟩ := done_run N S
  refine .intro hloop hvisits hnodup fun q => ?_
  rw [Nfa.epsilonClosure, StateSet.mem_ofMarks]
  exact hmem q

/-! ## The state found last is visited next -/

/-- A search that keeps the states to be visited on a stack, with the one found last on top. -/
structure StackSearch where
  found : StateSet
  stack : List StateId

namespace StackSearch

/-- The search before anything is visited. -/
def init (S : StateSet) : StackSearch := ⟨S, S.toList.reverse⟩

/-- Puts a state on the stack unless it has been found before. -/
def discover : StackSearch → StateId → StackSearch
  | ⟨found, stack⟩, p =>
    let (found, isNew) := found.insertNew p
    ⟨found, if isNew then p :: stack else stack⟩

/-- Whether the stack is empty. -/
def isIdle (s : StackSearch) : Bool := s.stack.isEmpty

/-- Takes the state on top of the stack and visits it, if there is one. -/
def visit (N : Nfa) (s : StackSearch) : StackSearch :=
  match s.stack with
  | q :: stack => (N.successors q .epsilon).foldl discover ⟨s.found, stack⟩
  | [] => s

variable {N : Nfa} {S : StateSet} {s : StackSearch} {visited stack : List StateId}
  {p q : StateId}

/-- Every state that is found has been visited or is on the stack, once. -/
structure Exact (visited : List StateId) (s : StackSearch) : Prop where
  nodup : (visited ++ s.stack).Nodup
  mem_iff : ∀ q, q ∈ visited ++ s.stack ↔ q ∈ s.found

theorem mem_discover : q ∈ (s.discover p).found ↔ q = p ∨ q ∈ s.found := StateSet.mem_insert

theorem found_foldl_discover (s : StackSearch) (ps : List StateId) :
    (ps.foldl discover s).found = s.found.insertMany ps :=
  (List.foldl_hom found fun _ _ => rfl).symm

theorem mem_foldl_discover {ps : List StateId} :
    q ∈ (ps.foldl discover s).found ↔ q ∈ s.found ∨ q ∈ ps := by
  rw [found_foldl_discover, StateSet.mem_insertMany]

theorem Exact.discover (h : s.Exact visited) (p : StateId) : (s.discover p).Exact visited := by
  have hm := fun q => mem_discover (s := s) (p := p) (q := q)
  by_cases hp : p ∈ s.found
  · have hstack : (s.discover p).stack = s.stack := by
      simp [StackSearch.discover, StateSet.insertNew, hp]
    refine ⟨by rw [hstack]; exact h.nodup, fun q => ?_⟩
    rw [hstack, h.mem_iff, hm]
    exact ⟨.inr, fun hq => hq.elim (fun heq => heq ▸ hp) id⟩
  · have hstack : (s.discover p).stack = p :: s.stack := by
      simp [StackSearch.discover, StateSet.insertNew, hp]
    have hnew : p ∉ visited ++ s.stack := fun hmem => hp ((h.mem_iff p).1 hmem)
    refine ⟨?_, fun q => ?_⟩
    · rw [hstack, List.nodup_middle]
      exact List.nodup_cons.2 ⟨hnew, h.nodup⟩
    · rw [hstack, hm, ← h.mem_iff, List.mem_append, List.mem_append, List.mem_cons, or_left_comm]

theorem Exact.discoverAll (h : s.Exact visited) (ps : List StateId) :
    (ps.foldl StackSearch.discover s).Exact visited := by
  induction ps generalizing s with
  | nil => exact h
  | cons p ps ih => exact ih (h.discover p)

/-- What holds before and after every visit of a search from `S`. -/
structure Inv (N : Nfa) (S : StateSet) (visited : List StateId) (s : StackSearch) : Prop where
  exact : s.Exact visited
  start : ∀ q ∈ S, q ∈ s.found
  inClosure : ∀ q ∈ s.found, q ∈ N.epsilonClosure S
  closed : ∀ q ∈ visited, ∀ p ∈ N.successors q .epsilon, p ∈ s.found

theorem inv_init (N : Nfa) (S : StateSet) : (init S).Inv N S [] where
  exact := ⟨List.nodup_reverse.2 S.nodup_toList, fun _ => List.mem_reverse⟩
  start _ hq := hq
  inClosure _ hq := Nfa.mem_epsilonClosure_of_mem hq
  closed _ hq := absurd hq List.not_mem_nil

theorem visit_eq (hstack : s.stack = q :: stack) :
    s.visit N = (N.successors q .epsilon).foldl discover ⟨s.found, stack⟩ := by
  rw [visit, hstack]

theorem Inv.visit (h : s.Inv N S visited) (hstack : s.stack = q :: stack) :
    (s.visit N).Inv N S (visited ++ [q]) := by
  have hentries : (visited ++ [q]) ++ stack = visited ++ s.stack := by
    rw [hstack, List.append_assoc, List.singleton_append]
  have hexact : Exact (visited ++ [q]) ⟨s.found, stack⟩ :=
    ⟨by rw [hentries]; exact h.exact.nodup, fun r => by rw [hentries]; exact h.exact.mem_iff r⟩
  have hq : q ∈ N.epsilonClosure S :=
    h.inClosure q ((hexact.mem_iff q).1 (by simp))
  rw [visit_eq hstack]
  refine ⟨hexact.discoverAll _, fun r hr => mem_foldl_discover.2 (.inl (h.start r hr)),
    fun r hr => ?_, fun r hr p hp => mem_foldl_discover.2 ?_⟩
  · rcases mem_foldl_discover.1 hr with hr | hr
    · exact h.inClosure r hr
    · exact Nfa.mem_epsilonClosure_of_successor hq hr
  · rcases List.mem_append.1 hr with hr | hr
    · exact .inl (h.closed r hr p hp)
    · obtain rfl := List.mem_singleton.1 hr
      exact .inr hp

theorem Inv.length_le (h : s.Inv N S visited) : visited.length ≤ (N.epsilonClosure S).size := by
  refine (List.nodup_append.1 h.exact.nodup).1.length_le_of_subset fun q hq => ?_
  exact h.inClosure q ((h.exact.mem_iff q).1 (List.mem_append_left _ hq))

/-- With nothing left on the stack, the closure is found and all of it has been visited. -/
theorem Inv.eq_epsilonClosure (h : s.Inv N S visited) (hstack : s.stack = []) :
    s.found = N.epsilonClosure S ∧ ∀ q, q ∈ visited ↔ q ∈ N.epsilonClosure S := by
  have hmem := h.exact.mem_iff
  simp only [hstack, List.append_nil] at hmem
  have hfound : s.found = N.epsilonClosure S := by
    refine StateSet.ext fun q => ⟨h.inClosure q, ?_⟩
    exact Nfa.epsilonClosure_subset h.start fun r hr => h.closed r ((hmem r).2 hr)
  exact ⟨hfound, fun q => by rw [hmem, hfound]⟩

/-- **The search visits each state of the closure once** if it keeps them on a stack, too. -/
theorem exists_visitsOnce (N : Nfa) (S : StateSet) : ∃ last,
    VisitsOnce isIdle (visit N) (·.stack.head?) (init S) last (N.epsilonClosure S) ∧
      last.found = N.epsilonClosure S := by
  have hstep : ∀ log (s : StackSearch),
      (∃ visited : List StateId, log = visited.map some ∧ s.Inv N S visited) →
      s.isIdle = false →
      (∃ visited : List StateId, log ++ [s.stack.head?] = visited.map some ∧
        (s.visit N).Inv N S visited) ∧ log.length < (N.epsilonClosure S).size := by
    rintro log s ⟨visited, rfl, hs⟩ hidle
    obtain ⟨q, stack, hstack⟩ := List.exists_cons_of_ne_nil (List.isEmpty_eq_false_iff.1 hidle)
    have hnext := hs.visit hstack
    have hlength := hnext.length_le
    rw [List.length_append, List.length_singleton] at hlength
    -- the states visited stay distinct and inside the closure, so there is room for one more
    refine ⟨⟨visited ++ [q], by simp [hstack], hnext⟩, ?_⟩
    rw [List.length_map]
    omega
  obtain ⟨passes, last, hloop, ⟨visited, hvisits, hlast⟩, -⟩ :=
    exists_loop hstep ⟨[], rfl, inv_init N S⟩
  obtain ⟨hfound, hmem⟩ := hlast.eq_epsilonClosure (List.isEmpty_iff.1 hloop.idle_last)
  have hnodup : visited.Nodup := (List.nodup_append.1 hlast.exact.nodup).1
  exact ⟨last, .intro hloop hvisits hnodup hmem, hfound⟩

end StackSearch

/-! ## The closure -/

/-- **Epsilon closure is exactly epsilon reachability**, for any set of ids, declared or not: the
search for it ends after one pass for each member, in whatever order it visits what it finds, and
the result is the least set that contains the given one and that no epsilon transition leaves. -/
theorem Nfa.epsilonClosure_exact (N : Nfa) (S : StateSet) :
    VisitsOnce EpsilonSearch.isIdle (EpsilonSearch.visit N) (·.queue.next?) (EpsilonSearch.init S)
      (EpsilonSearch.run N S) (N.epsilonClosure S) ∧
    (∃ last, VisitsOnce StackSearch.isIdle (StackSearch.visit N) (·.stack.head?)
        (StackSearch.init S) last (N.epsilonClosure S) ∧ last.found = N.epsilonClosure S) ∧
    (∀ p, p ∈ N.epsilonClosure S ↔ ∃ q ∈ S, N.EpsilonReaches q p) ∧
    (∀ q ∈ S, q ∈ N.epsilonClosure S) ∧ N.EpsilonClosed (N.epsilonClosure S) ∧
    (∀ T : StateSet, (∀ q ∈ S, q ∈ T) → N.EpsilonClosed T → ∀ p ∈ N.epsilonClosure S, p ∈ T) := by
  refine ⟨EpsilonSearch.visitsOnce_run N S, StackSearch.exists_visitsOnce N S,
    fun _ => mem_epsilonClosure_iff, fun _ => mem_epsilonClosure_of_mem, ?_, fun T hS hT p => ?_⟩
  · exact epsilonClosed_iff.2 fun q hq p => mem_epsilonClosure_of_successor hq
  · exact epsilonClosure_subset hS (epsilonClosed_iff.1 hT)

/-- Epsilon transitions lead from `A` to `B` and back, from both of them to `C`, and from `C` to
itself. -/
def Nfa.circular : Nfa :=
  Definition.assemble ⟨["A", "B", "C", "D"], by decide, by decide⟩ ⟨[], by decide, by decide⟩
    [⟨⟨.ofNat 0, .epsilon, .ofNat 1⟩, by decide, trivial, by decide⟩,
      ⟨⟨.ofNat 0, .epsilon, .ofNat 2⟩, by decide, trivial, by decide⟩,
      ⟨⟨.ofNat 1, .epsilon, .ofNat 0⟩, by decide, trivial, by decide⟩,
      ⟨⟨.ofNat 1, .epsilon, .ofNat 2⟩, by decide, trivial, by decide⟩,
      ⟨⟨.ofNat 2, .epsilon, .ofNat 2⟩, by decide, trivial, by decide⟩]
    ⟨.ofNat 0, by decide⟩ []

/-- Starting in `A` and in an id that is not declared takes four visits. -/
theorem Nfa.epsilonClosure_exact_circular :
    let S := StateSet.ofList [.ofNat 0, .ofNat 7]
    let T := StateSet.ofList [.ofNat 0, .ofNat 1, .ofNat 2, .ofNat 7]
    (∀ q ∈ S, q ∈ T) ∧ circular.EpsilonClosed T ∧ (∀ p ∈ circular.epsilonClosure S, p ∈ T) ∧
      circular.epsilonClosure S = T ∧ T.size = 4 ∧
      VisitsOnce EpsilonSearch.isIdle (EpsilonSearch.visit circular) (·.queue.next?)
        (EpsilonSearch.init S) (EpsilonSearch.run circular S) T := by
  intro S T
  have hsub : ∀ q ∈ S, q ∈ T := StateSet.isSubset_iff.1 (by decide +kernel)
  have hclosed : circular.EpsilonClosed T := by decide +kernel
  have heq : circular.epsilonClosure S = T := by decide +kernel
  obtain ⟨hvisits, -, -, -, -, hleast⟩ := epsilonClosure_exact circular S
  exact ⟨hsub, hclosed, hleast T hsub hclosed, heq, by decide +kernel, heq ▸ hvisits⟩

end FiniteAutomata
