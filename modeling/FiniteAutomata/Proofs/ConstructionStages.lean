import Mathlib.Data.Finset.Powerset
import FiniteAutomata.Proofs.ArenaConsistency
import FiniteAutomata.Proofs.Exploration
import FiniteAutomata.Proofs.ReachableSets

/-!
# The stages of the subset construction

A construction in progress explores words breadth first: its states are those that the words listed
so far lead to, in the order of the list. `Stage N W q filled c` ties a construction `c` to the list
`W`: the sets among the first `q` states are done and the others are pending, each under its own id;
the row at position `n` has the successors on `filled n`, and the row of the sink has none.

* `Stage.intern`, `Stage.push` and hence `Stage.follow`: what one symbol does.
* `AtStage.expand`: an expansion extends the word of the first pending set by all symbols.
* `AtStage.skip`, `AtStage.advance`: the sink is passed over without an expansion.
* `exists_stage_run`: the construction ends with all listed words extended, since there are at most
  `2 ^ n` states for words to lead to (`length_le_of_nodup`).

Ids wrap around in an arena of more than `Index.capacity` states. What the rows hold is therefore
stated for smaller arenas only.
-/

namespace FiniteAutomata

open Exploration (note extend)

/-- The words listed once `n` of them have been extended, one for each state found. -/
def Nfa.listed (N : Nfa) (n : Nat) : List (List Symbol) :=
  Exploration.listed N.stateAfter N.alphabet.ids n

theorem Nfa.ordered_listed (N : Nfa) (n : Nat) :
    Exploration.Ordered N.stateAfter N.alphabet.ids (· < ·) n (N.listed n) :=
  Exploration.ordered_listed N.alphabet.pairwise_ids n

namespace StateSet

variable {S T : StateSet} {q : StateId}

/-- The positions of the members. -/
def positions (S : StateSet) : Finset Nat := (S.toList.map Index.toNat).toFinset

theorem mem_positions {k : Nat} : k ∈ S.positions ↔ ∃ q ∈ S, q.toNat = k := by
  simp [positions]

theorem toNat_mem_positions : q.toNat ∈ S.positions ↔ q ∈ S := by simp [mem_positions]

theorem positions_inj (h : S.positions = T.positions) : S = T :=
  StateSet.ext fun q => by rw [← toNat_mem_positions, h, toNat_mem_positions]

/-- There are `2 ^ n` sets of states below `n`. -/
theorem length_le_of_nodup {L : List StateSet} {n : Nat} (h : L.Nodup)
    (hL : ∀ S ∈ L, ∀ q ∈ S, q.toNat < n) : L.length ≤ 2 ^ n := by
  have hmaps : Set.MapsTo positions L.toFinset (Finset.range n).powerset := by
    intro S hS
    rw [Finset.mem_coe, Finset.mem_powerset]
    intro k hk
    obtain ⟨q, hq, rfl⟩ := mem_positions.1 hk
    exact Finset.mem_range.2 (hL S (List.mem_toFinset.1 hS) q hq)
  calc L.length = L.toFinset.card := (List.toFinset_card_of_nodup h).symm
    _ ≤ (Finset.range n).powerset.card :=
        Finset.card_le_card_of_injOn positions hmaps fun _ _ _ _ => positions_inj
    _ = 2 ^ n := by rw [Finset.card_powerset, Finset.card_range]

end StateSet

/-- Words with different states are at most as many as there are sets of states. -/
theorem Nfa.length_le_of_nodup {N : Nfa} {W : List (List Symbol)}
    (h : (W.map N.stateAfter).Nodup) : W.length ≤ 2 ^ N.size := by
  have hsets : (W.map N.reachable).Nodup := by
    apply List.Nodup.of_map Construction.stateFor
    rwa [List.map_map]
  have hle : (W.map N.reachable).length ≤ 2 ^ N.size := by
    refine StateSet.length_le_of_nodup hsets fun S hS q hq => ?_
    obtain ⟨w, -, rfl⟩ := List.mem_map.1 hS
    exact has_of_mem_reachable hq
  rwa [List.length_map] at hle

namespace Construction

/-! ## Rows -/

/-- The row at position `n` leads from the state after `u` to those after its extensions by `as`. -/
def LeadsFrom (N : Nfa) (A : Arena) (n : Nat) (u as : List Symbol) : Prop :=
  ∃ row, A.rows[n]? = some row ∧
    row.toList.map (fun t => A.states[t.toNat]?) = as.map fun a => some (N.stateAfter (u ++ [a]))

section

variable {N : Nfa} {A : Arena} {accepting : StateSet} {n : Nat} {u as : List Symbol} {a : Symbol}
  {s : DfaState} {i j : DfaStateId}

theorem LeadsFrom.add (h : LeadsFrom N A n u as) : LeadsFrom N (A.add accepting s i) n u as := by
  obtain ⟨row, hrow, hmap⟩ := h
  refine ⟨row, ?_, ?_⟩
  · show (A.rows.push #[])[n]? = some row
    rw [Array.getElem?_push, if_neg (Nat.ne_of_lt (Array.getElem?_eq_some_iff.1 hrow).1), hrow]
  · rw [← hmap]
    refine List.map_congr_left fun t ht => ?_
    have hsome : A.states[t.toNat]? ∈ as.map fun a => some (N.stateAfter (u ++ [a])) :=
      hmap ▸ List.mem_map_of_mem ht
    obtain ⟨a, -, ha⟩ := List.mem_map.1 hsome
    rw [Arena.states_add, Array.getElem?_push,
      if_neg (Nat.ne_of_lt (Array.getElem?_eq_some_iff.1 ha.symm).1)]

theorem leadsFrom_add_self (h : A.rows.size = A.states.size) :
    LeadsFrom N (A.add accepting s i) A.states.size u [] :=
  ⟨#[], by show (A.rows.push #[])[A.states.size]? = _; rw [Array.getElem?_push, if_pos h.symm], rfl⟩

theorem LeadsFrom.push (h : LeadsFrom N A i.toNat u as)
    (hj : A.states[j.toNat]? = some (N.stateAfter (u ++ [a]))) :
    LeadsFrom N (A.pushSuccessor i j) i.toNat u (as ++ [a]) := by
  obtain ⟨row, hrow, hmap⟩ := h
  refine ⟨row.push j, ?_, ?_⟩
  · rw [Arena.getElem?_rows_pushSuccessor, if_pos rfl, hrow, Option.map_some]
  · rw [Array.toList_push, List.map_append, List.map_append, Arena.states_pushSuccessor, hmap,
      List.map_singleton, List.map_singleton, hj]

theorem LeadsFrom.push_of_ne (h : LeadsFrom N A n u as) (hn : i.toNat ≠ n) :
    LeadsFrom N (A.pushSuccessor i j) n u as := by
  obtain ⟨row, hrow, hmap⟩ := h
  exact ⟨row, by rw [Arena.getElem?_rows_pushSuccessor, if_neg hn, hrow], hmap⟩

theorem LeadsFrom.length_eq (h : LeadsFrom N A n u as) :
    ∃ row, A.rows[n]? = some row ∧ row.size = as.length := by
  obtain ⟨row, hrow, hmap⟩ := h
  have := congrArg List.length hmap
  rw [List.length_map, List.length_map, Array.length_toList] at this
  exact ⟨row, hrow, this⟩

end

/-! ## Stages -/

/-- The queue entry of the state at a position. The sink has none. -/
def queueEntry : DfaState × Nat → Option (DfaStateId × StateSet)
  | (.subset S, n) => some (.ofNat n, S)
  | (.sink, _) => none

/-- How far a construction has got (module doc). -/
structure Stage (N : Nfa) (W : List (List Symbol)) (q : Nat) (filled : Nat → List Symbol)
    (c : Construction) : Prop where
  consistent : c.arena.Consistent N.accepting
  states_eq : c.arena.states.toList = W.map N.stateAfter
  done_eq : c.queue.done = ((W.map N.stateAfter).zipIdx.take q).filterMap queueEntry
  pending_eq : c.queue.pending = ((W.map N.stateAfter).zipIdx.drop q).filterMap queueEntry
  le_length : q ≤ W.length
  unfilled : ∀ n, q ≤ n → filled n = []
  rows : c.arena.size ≤ Index.capacity → ∀ n u, W[n]? = some u →
    LeadsFrom N c.arena n u (if N.stateAfter u = .sink then [] else filled n)

section

variable {N : Nfa} {W : List (List Symbol)} {q p n : Nat} {filled : Nat → List Symbol}
  {A : Arena} {queue : Worklist (DfaStateId × StateSet)} {c : Construction} {u w : List Symbol}
  {S : StateSet} {a : Symbol}

theorem Stage.size_eq (h : Stage N W q filled c) : c.arena.size = W.length := by
  rw [Arena.size, ← Array.length_toList, h.states_eq, List.length_map]

/-- Adding a state that no listed word leads to, and queueing it if it is a set, lists `w`. -/
theorem Stage.add (h : Stage N W q filled ⟨A, queue⟩) (hw : N.stateAfter w ∉ A.states.toList) :
    Stage N (W ++ [w]) q filled ⟨A.add N.accepting (N.stateAfter w) A.nextId,
      if !(N.reachable w).isEmpty then queue.push (.ofNat A.size, N.reachable w) else queue⟩ := by
  have hsize : A.size = W.length := h.size_eq
  have hle : q ≤ (W.map N.stateAfter).zipIdx.length := by simpa using h.le_length
  have hzip : ((W ++ [w]).map N.stateAfter).zipIdx =
      (W.map N.stateAfter).zipIdx ++ [(N.stateAfter w, A.size)] := by
    rw [List.map_append, List.map_singleton, List.zipIdx_append, hsize]
    simp
  refine ⟨h.consistent.add hw, ?_, ?_, ?_, ?_, h.unfilled, fun hcap n v hv => ?_⟩
  · rw [Arena.states_add, Array.toList_push, List.map_append, List.map_singleton]
    exact congrArg (· ++ [N.stateAfter w]) h.states_eq
  · rw [hzip, List.take_append_of_le_length hle, ← h.done_eq]
    split <;> simp
  · rw [hzip, List.drop_append_of_le_length hle, List.filterMap_append, ← h.pending_eq]
    by_cases hempty : (N.reachable w).isEmpty = true
    · have hsink : N.stateAfter w = .sink := if_pos hempty
      simp [hempty, hsink, queueEntry]
    · have hsubset : N.stateAfter w = .subset (N.reachable w) := if_neg hempty
      simp [hempty, hsubset, queueEntry]
  · have hlen := h.le_length
    rw [List.length_append]
    omega
  · have hcap' : A.size ≤ Index.capacity := by
      rw [Arena.size, Arena.states_add, Array.size_push] at hcap
      unfold Arena.size
      omega
    by_cases hn : n < W.length
    · rw [List.getElem?_append_left hn] at hv
      exact (h.rows hcap' n v hv).add
    -- the new row is empty, whether the new state is the sink or a set
    · have hn' : n = A.states.size := by
        have := (List.getElem?_eq_some_iff.1 hv).1
        rw [List.length_append, List.length_singleton] at this
        rw [← Arena.size, hsize]
        omega
      have hnil : (if N.stateAfter v = .sink then [] else filled n) = [] := by
        rw [h.unfilled n (Nat.le_trans h.le_length (Nat.not_lt.1 hn)), ite_self]
      rw [hnil, hn']
      exact leadsFrom_add_self h.consistent.rows_size

/-- Interning the state that `w` leads to, and queueing it if it is a new set, lists `w`. -/
theorem Stage.intern (h : Stage N W q filled ⟨A, queue⟩) (w : List Symbol) :
    ∃ n A' isNew, A.intern N.accepting (N.stateAfter w) = (A', .ofNat n, isNew) ∧
      A'.states[n]? = some (N.stateAfter w) ∧
      Stage N (note N.stateAfter W w) q filled ⟨A', if isNew && !(N.reachable w).isEmpty
        then queue.push (.ofNat n, N.reachable w) else queue⟩ := by
  by_cases hw : N.stateAfter w ∈ A.states.toList
  · obtain ⟨n, hn⟩ := List.mem_iff_getElem?.1 hw
    rw [Array.getElem?_toList] at hn
    refine ⟨n, A, false, h.consistent.intern_of_mem hn, hn, ?_⟩
    rw [Exploration.note_of_mem (h.states_eq ▸ hw), Bool.false_and, if_neg Bool.false_ne_true]
    exact h
  · refine ⟨A.size, A.add N.accepting (N.stateAfter w) A.nextId, true,
      h.consistent.intern_of_not_mem hw, ?_, ?_⟩
    · rw [Arena.states_add, Arena.size, Array.getElem?_push, if_pos rfl]
    · rw [Exploration.note_of_not_mem (h.states_eq ▸ hw), Bool.true_and]
      exact h.add hw

/-- Appending the successor on `a` fills the row of a set by one more symbol. -/
theorem Stage.push (h : Stage N W q filled ⟨A, queue⟩) (hu : W[p]? = some u) (hp : p < q)
    (hset : N.stateAfter u ≠ .sink) (hn : A.states[n]? = some (N.stateAfter (u ++ [a]))) :
    Stage N W q (Function.update filled p (filled p ++ [a]))
      ⟨A.pushSuccessor (.ofNat p) (.ofNat n), queue⟩ := by
  refine ⟨h.consistent.pushSuccessor _ _, h.states_eq, h.done_eq, h.pending_eq, h.le_length,
    fun m hm => ?_, fun hcap m v hv => ?_⟩
  · rw [Function.update_of_ne (by omega)]
    exact h.unfilled m hm
  · have hcap : A.states.size ≤ Index.capacity := hcap
    have hnlt : n < Index.capacity :=
      Nat.lt_of_lt_of_le (Array.getElem?_eq_some_iff.1 hn).1 hcap
    have hplt : p < Index.capacity := Nat.lt_of_lt_of_le (List.getElem?_eq_some_iff.1 hu).1
      (h.size_eq ▸ hcap)
    have hrow := h.rows hcap m v hv
    by_cases hmp : m = p
    · subst hmp
      obtain rfl : u = v := Option.some.inj (hu.symm.trans hv)
      rw [if_neg hset] at hrow ⊢
      rw [Function.update_self]
      have hi : (Index.ofNat m : DfaStateId).toNat = m := Index.toNat_ofNat_of_lt hplt
      rw [← hi] at hrow
      have := hrow.push (j := .ofNat n) (a := a) (by rw [Index.toNat_ofNat_of_lt hnlt]; exact hn)
      rwa [hi] at this
    · rw [Function.update_of_ne hmp]
      exact hrow.push_of_ne (by rw [Index.toNat_ofNat_of_lt hplt]; exact fun he => hmp he.symm)

/-- **What one symbol does**: the extension of `u` is listed, and the row of `u` grows by one. -/
theorem Stage.follow (h : Stage N W q filled c) (hu : W[p]? = some u) (hp : p < q)
    (hset : N.stateAfter u = .subset S) (a : Symbol) :
    Stage N (note N.stateAfter W (u ++ [a])) q (Function.update filled p (filled p ++ [a]))
      (follow N (.ofNat p) S c a) := by
  obtain ⟨A, queue⟩ := c
  obtain ⟨n, A', isNew, hintern, hn, hstage⟩ := h.intern (u ++ [a])
  have hne : N.stateAfter u ≠ .sink := fun he => nomatch hset.symm.trans he
  have hpush := hstage.push (Exploration.getElem?_note hu) hp hne hn
  rw [Construction.follow, Nfa.reach_eq_reachable hset, ← Nfa.stateAfter, hintern]
  exact hpush

theorem Stage.foldl_follow (h : Stage N W q filled c) (hu : W[p]? = some u) (hp : p < q)
    (hset : N.stateAfter u = .subset S) (as : List Symbol) :
    Stage N (extend N.stateAfter W u as) q (Function.update filled p (filled p ++ as))
      (as.foldl (Construction.follow N (.ofNat p) S) c) := by
  induction as generalizing W filled c with
  | nil =>
    rw [List.append_nil, Function.update_eq_self]
    exact h
  | cons a as ih =>
    have hnext := ih (h.follow hu hp hset a) (Exploration.getElem?_note hu)
    rw [Function.update_self, List.append_assoc, List.singleton_append,
      Function.update_idem] at hnext
    exact hnext

theorem done_follow (i : DfaStateId) (S : StateSet) (c : Construction) (a : Symbol) :
    (Construction.follow N i S c a).queue.done = c.queue.done := by
  obtain ⟨A, queue⟩ := c
  simp only [Construction.follow]
  split <;> simp

theorem done_foldl_follow {i : DfaStateId} (as : List Symbol) :
    (as.foldl (Construction.follow N i S) c).queue.done = c.queue.done := by
  induction as generalizing c with
  | nil => rfl
  | cons a as ih => rw [List.foldl_cons, ih, done_follow]

/-! ## Expansions -/

/-- The symbols of the rows that are filled when the first `p` words have been extended. -/
def filledBefore (N : Nfa) (p : Nat) (n : Nat) : List Symbol := if n < p then N.alphabet.ids else []

theorem filledBefore_succ : filledBefore N (p + 1) =
    Function.update (filledBefore N p) p (filledBefore N p p ++ N.alphabet.ids) := by
  funext n
  by_cases hn : n = p
  · subst hn
    simp [filledBefore]
  · rw [Function.update_of_ne hn, filledBefore, filledBefore]
    refine if_congr ?_ rfl rfl
    omega

/-- The construction has dealt with the first `p` states that it lists. -/
def AtStage (N : Nfa) (p : Nat) (c : Construction) : Prop :=
  Stage N (N.listed p) p (filledBefore N p) c

theorem drop_zipIdx {L : List DfaState} {s : DfaState} (h : L[p]? = some s) :
    L.zipIdx.drop p = (s, p) :: L.zipIdx.drop (p + 1) ∧
      L.zipIdx.take (p + 1) = L.zipIdx.take p ++ [(s, p)] := by
  have hget : L.zipIdx[p]? = some (s, p) := by simp [h]
  obtain ⟨hlt, heq⟩ := List.getElem?_eq_some_iff.1 hget
  rw [← heq]
  exact ⟨List.drop_eq_getElem_cons hlt, List.take_succ_eq_append_getElem hlt⟩

theorem AtStage.getElem?_map (hu : (N.listed p)[p]? = some u) :
    ((N.listed p).map N.stateAfter)[p]? = some (N.stateAfter u) := by
  rw [List.getElem?_map, hu, Option.map_some]

/-- The sink is passed over: it has no queue entry, and its extensions are the sink again. -/
theorem AtStage.skip (h : AtStage N p c) (hu : (N.listed p)[p]? = some u)
    (hsink : N.stateAfter u = .sink) : AtStage N (p + 1) c ∧ N.listed (p + 1) = N.listed p := by
  have hlisted : N.listed (p + 1) = N.listed p := by
    rw [Nfa.listed, Exploration.listed_succ hu]
    refine Exploration.extend_eq_self fun a _ => ?_
    rw [Nfa.stateAfter_snoc_of_sink hsink, ← hsink]
    exact List.mem_map_of_mem (List.mem_of_getElem? hu)
  refine ⟨?_, hlisted⟩
  obtain ⟨hdrop, htake⟩ := drop_zipIdx (AtStage.getElem?_map hu)
  unfold AtStage
  rw [hlisted]
  refine ⟨h.consistent, h.states_eq, ?_, ?_, (List.getElem?_eq_some_iff.1 hu).1, fun n hn => ?_,
    fun hcap n v hv => ?_⟩
  · rw [htake, List.filterMap_append, ← h.done_eq, hsink]
    simp [queueEntry]
  · rw [h.pending_eq, hdrop, List.filterMap_cons, hsink, queueEntry]
  · exact if_neg (Nat.not_lt.2 hn)
  · have hrow := h.rows hcap n v hv
    by_cases hn : n = p
    · subst hn
      obtain rfl : u = v := Option.some.inj (hu.symm.trans hv)
      rw [if_pos hsink] at hrow ⊢
      exact hrow
    · rwa [filledBefore_succ, Function.update_of_ne hn]

/-- The first pending set is that of the first word not yet extended. -/
theorem AtStage.pop (h : AtStage N p c) (hu : (N.listed p)[p]? = some u)
    (hset : N.stateAfter u = .subset S) :
    ∃ queue, c.queue.pop? = some ((.ofNat p, S), queue) ∧
      queue.done = c.queue.done ++ [(.ofNat p, S)] ∧
      Stage N (N.listed p) (p + 1) (filledBefore N p) ⟨c.arena, queue⟩ := by
  obtain ⟨hdrop, htake⟩ := drop_zipIdx (AtStage.getElem?_map hu)
  have hpending : c.queue.pending = (.ofNat p, S) ::
      (((N.listed p).map N.stateAfter).zipIdx.drop (p + 1)).filterMap queueEntry := by
    rw [h.pending_eq, hdrop, List.filterMap_cons, hset, queueEntry]
  cases hpop : c.queue.pop? with
  | none =>
    rw [Worklist.pop?_eq_none_iff.1 hpop] at hpending
    cases hpending
  | some e =>
    obtain ⟨⟨i, T⟩, queue⟩ := e
    obtain ⟨hcons, hdone⟩ := Worklist.pop?_eq_some hpop
    obtain ⟨hentry, hrest⟩ := List.cons.inj (hcons.symm.trans hpending)
    obtain ⟨rfl, rfl⟩ := Prod.mk.inj hentry
    refine ⟨queue, rfl, hdone, h.consistent, h.states_eq, ?_, hrest,
      (List.getElem?_eq_some_iff.1 hu).1, fun n hn => h.unfilled n (by omega), h.rows⟩
    rw [hdone, htake, List.filterMap_append, ← h.done_eq, hset]
    rfl

/-- **What an expansion does**: the word of the first pending set is extended by all symbols. -/
theorem AtStage.expand (h : AtStage N p c) (hu : (N.listed p)[p]? = some u)
    (hset : N.stateAfter u = .subset S) :
    c.isIdle = false ∧ AtStage N (p + 1) (expand N c) ∧
      (expand N c).queue.served = c.queue.served + 1 := by
  obtain ⟨queue, hpop, hdone, hpopped⟩ := h.pop hu hset
  have hall := hpopped.foldl_follow hu (by omega) hset N.alphabet.ids
  have hexpand : Construction.expand N c =
      N.alphabet.ids.foldl (Construction.follow N (.ofNat p) S) ⟨c.arena, queue⟩ := by
    rw [Construction.expand, hpop]
  refine ⟨?_, ?_, ?_⟩
  · unfold isIdle
    rw [Bool.eq_false_iff, ne_eq, Worklist.isDone_iff, (Worklist.pop?_eq_some hpop).1]
    exact List.cons_ne_nil _ _
  · rw [hexpand, AtStage, filledBefore_succ, Nfa.listed, Exploration.listed_succ hu]
    exact hall
  · rw [hexpand, ← Worklist.length_done, done_foldl_follow, hdone, List.length_append,
      Worklist.length_done, List.length_singleton]

/-- Every state left to deal with is the sink, or the next set to be expanded comes after it. -/
theorem AtStage.advance (h : AtStage N p c) : ∃ p', AtStage N p' c ∧
    ((N.listed p').length = p' ∨
      ∃ u S, (N.listed p')[p']? = some u ∧ N.stateAfter u = .subset S) := by
  -- on how many listed words are left, since passing the sink over leaves one less
  induction hk : (N.listed p).length - p generalizing p with
  | zero =>
    have hlen := h.le_length
    exact ⟨p, h, .inl (by omega)⟩
  | succ k ih =>
    have hlt : p < (N.listed p).length := by omega
    have hu := List.getElem?_eq_getElem hlt
    cases hstate : N.stateAfter (N.listed p)[p] with
    | subset S => exact ⟨p, h, .inr ⟨_, S, hu, hstate⟩⟩
    | sink =>
      obtain ⟨hskip, hlisted⟩ := h.skip hu hstate
      exact ih hskip (by rw [hlisted]; omega)

/-! ## The run -/

theorem atStage_init (N : Nfa) : AtStage N 0 (init N) := by
  have hstart : Stage N [] 0 (filledBefore N 0) ⟨.empty, .ofList []⟩ :=
    ⟨Arena.consistent_empty _, rfl, rfl, rfl, Nat.le_refl 0, fun _ _ => if_neg (Nat.not_lt_zero _),
      fun _ _ _ hv => nomatch hv⟩
  have hnew : N.stateAfter [] ∉ Arena.empty.states.toList := List.not_mem_nil
  have hne : (N.reachable []).isEmpty = false := by
    rw [Bool.eq_false_iff, ne_eq, StateSet.isEmpty_iff]
    exact fun hempty => hempty _ N.start_mem_initialSet
  have hstage := hstart.add hnew
  rw [hne] at hstage
  rw [init, ← Nfa.stateAfter_nil, hstart.consistent.intern_of_not_mem hnew]
  exact hstage

/-- What holds between the expansions of a construction. -/
def Inv (N : Nfa) (c : Construction) : Prop := ∃ p, AtStage N p c

/-- Unless it is idle, a construction has a set to expand next. -/
theorem Inv.next (h : Inv N c) (hidle : c.isIdle = false) :
    ∃ p u S, AtStage N p c ∧ (N.listed p)[p]? = some u ∧ N.stateAfter u = .subset S := by
  obtain ⟨p, hp⟩ := h
  obtain ⟨p', hp', hend | ⟨u, S, hu, hset⟩⟩ := hp.advance
  · have hpending := hp'.pending_eq
    rw [List.drop_eq_nil_of_le (by simp [hend]), List.filterMap_nil] at hpending
    unfold isIdle at hidle
    rw [Worklist.isDone_iff.2 hpending] at hidle
    cases hidle
  · exact ⟨p', u, S, hp', hu, hset⟩

theorem Inv.expand (h : Inv N c) (hidle : c.isIdle = false) :
    Inv N (Construction.expand N c) ∧
      (Construction.expand N c).queue.served = c.queue.served + 1 ∧
      c.queue.served < 2 ^ N.size := by
  obtain ⟨p, u, S, hp, hu, hset⟩ := h.next hidle
  obtain ⟨-, hexpand, hserved⟩ := hp.expand hu hset
  refine ⟨⟨p + 1, hexpand⟩, hserved, ?_⟩
  calc c.queue.served = c.queue.done.length := c.queue.length_done.symm
    _ ≤ (((N.listed p).map N.stateAfter).zipIdx.take p).length := by
        rw [hp.done_eq]
        exact List.length_filterMap_le _ _
    _ ≤ p := List.length_take_le _ _
    _ < (N.listed p).length := (List.getElem?_eq_some_iff.1 hu).1
    _ ≤ 2 ^ N.size := Nfa.length_le_of_nodup (N.ordered_listed p).nodup

theorem inv_run (N : Nfa) : Inv N (run N) :=
  exhaust_induction (fun _ h hidle => (h.expand hidle).1) ⟨0, atStage_init N⟩ _

/-- The construction expands every set that it queues. -/
theorem isIdle_run (N : Nfa) : (run N).isIdle = true := by
  refine idle_exhaust (P := Inv N) (μ := fun c => 2 ^ N.size - c.queue.served)
    (fun c h hidle => ?_) ⟨0, atStage_init N⟩ (Nat.sub_le _ _)
  obtain ⟨hinv, hserved, hlt⟩ := h.expand hidle
  refine ⟨hinv, ?_⟩
  show 2 ^ N.size - (Construction.expand N c).queue.served < 2 ^ N.size - c.queue.served
  omega

/-- **The construction ends with every listed word extended.** -/
theorem exists_stage_run (N : Nfa) :
    ∃ p, (N.listed p).length = p ∧ AtStage N p (run N) ∧ (run N).queue.pending = [] := by
  have hpending : (run N).queue.pending = [] := Worklist.isDone_iff.1 (isIdle_run N)
  obtain ⟨p, hp⟩ := inv_run N
  obtain ⟨p', hp', hend | ⟨u, S, hu, hset⟩⟩ := hp.advance
  · exact ⟨p', hend, hp', hpending⟩
  · have hidle := (hp'.expand hu hset).1
    rw [isIdle_run N] at hidle
    cases hidle

end

end Construction

end FiniteAutomata
