import FiniteAutomata.Proofs.Determinized

/-!
# Rows are filled in alphabet order

In a construction with at most `Index.capacity` states, each successor is recorded when the row of
its source has got exactly as far as the symbol (`Stage.follow?_eq_some`). The construction with
checked rows therefore does the same as the one without (`determinize?_eq_some`).
-/

namespace FiniteAutomata

namespace Construction

open Exploration (note extend)

variable {N : Nfa} {W : List (List Symbol)} {q p : Nat} {filled : Nat → List Symbol}
  {A : Arena} {c : Construction} {u as bs : List Symbol} {S : StateSet} {a : Symbol}
  {i : DfaStateId}

/-! ## Expansions -/

theorem Stage.follow?_eq_some (h : Stage N W q filled c) (hu : W[p]? = some u)
    (hset : N.stateAfter u = .subset S) (ha : (filled p).length = a.toNat)
    (hcap : (note N.stateAfter W (u ++ [a])).length ≤ Index.capacity) :
    follow? N (.ofNat p) S c a = some (Construction.follow N (.ofNat p) S c a) := by
  obtain ⟨A, queue⟩ := c
  obtain ⟨n, A', isNew, hintern, -, hstage⟩ := h.intern (u ++ [a])
  have hne : N.stateAfter u ≠ .sink := fun he => nomatch hset.symm.trans he
  have hu' : (note N.stateAfter W (u ++ [a]))[p]? = some u := Exploration.getElem?_note hu
  have hrow := hstage.rows (hstage.size_eq ▸ hcap) p u hu'
  rw [if_neg hne] at hrow
  obtain ⟨row, hrow, hsize⟩ := hrow.length_eq
  have hp : (Index.ofNat p : DfaStateId).toNat = p :=
    Index.toNat_ofNat_of_lt (Nat.lt_of_lt_of_le (List.getElem?_eq_some_iff.1 hu').1 hcap)
  have hpush : A'.pushInOrder? (.ofNat p) a (.ofNat n) =
      some (A'.pushSuccessor (.ofNat p) (.ofNat n)) :=
    Arena.pushInOrder?_eq_some (by rwa [hp]) (hsize.trans ha)
  rw [follow?, Construction.follow, Nfa.reach_eq_reachable hset, ← Nfa.stateAfter, hintern]
  simp only [hpush, Option.map_some]

theorem Stage.foldlM_follow? (h : Stage N W q filled c) (hu : W[p]? = some u) (hp : p < q)
    (hset : N.stateAfter u = .subset S) (has : filled p ++ as = N.alphabet.ids)
    (hcap : (extend N.stateAfter W u as).length ≤ Index.capacity) :
    as.foldlM (follow? N (.ofNat p) S) c =
      some (as.foldl (Construction.follow N (.ofNat p) S) c) := by
  induction as generalizing W filled c with
  | nil => rfl
  | cons a as ih =>
    have hnote : note N.stateAfter W (u ++ [a]) <+: extend N.stateAfter W u (a :: as) :=
      Exploration.prefix_extend
    have hstep := h.follow?_eq_some hu hset (NameTable.length_eq_toNat has)
      (hnote.length_le.trans hcap)
    have hnext := ih (h.follow hu hp hset a) (Exploration.getElem?_note hu) (by simp [← has]) hcap
    rw [List.foldlM_cons, hstep]
    exact hnext

theorem AtStage.expand?_eq_some (h : AtStage N p c) (hu : (N.listed p)[p]? = some u)
    (hset : N.stateAfter u = .subset S)
    (hcap : (Construction.expand N c).arena.size ≤ Index.capacity) :
    expand? N c = some (Construction.expand N c) := by
  obtain ⟨queue, hpop, -, hpopped⟩ := h.pop hu hset
  obtain ⟨-, hexpand, -⟩ := h.expand hu hset
  rw [hexpand.size_eq, Nfa.listed, Exploration.listed_succ hu] at hcap
  have hids : filledBefore N p p ++ N.alphabet.ids = N.alphabet.ids := by simp [filledBefore]
  have hall := hpopped.foldlM_follow? hu (by omega) hset hids hcap
  unfold expand? Construction.expand
  rw [hpop]
  exact hall

/-- No expansion loses a state. -/
theorem AtStage.size_le (h : AtStage N p c) (hu : (N.listed p)[p]? = some u)
    (hset : N.stateAfter u = .subset S) : c.arena.size ≤ (Construction.expand N c).arena.size := by
  obtain ⟨-, hexpand, -⟩ := h.expand hu hset
  rw [h.size_eq, hexpand.size_eq, Nfa.listed, Nfa.listed, Exploration.listed_succ hu]
  exact Exploration.prefix_extend.length_le

theorem run?_eq_some (hcap : (run N).arena.size ≤ Index.capacity) : run? N = some (run N) := by
  refine (exhaust?_eq_some (P := Inv N) (Q := fun c => c.arena.size ≤ Index.capacity)
    (fun c h hidle => (h.expand hidle).1) (fun c h hidle hc => ?_) (fun c h hidle hc => ?_)
    ⟨0, atStage_init N⟩ hcap).1
  · obtain ⟨p, u, S, hp, hu, hset⟩ := h.next hidle
    exact (hp.size_le hu hset).trans hc
  · obtain ⟨p, u, S, hp, hu, hset⟩ := h.next hidle
    exact hp.expand?_eq_some hu hset hc

/-! ## The sink -/

theorem LeadsFrom.foldlM_pushInOrder? (h : LeadsFrom N A i.toNat u bs)
    (hi : ∀ a ∈ as, A.states[i.toNat]? = some (N.stateAfter (u ++ [a])))
    (has : bs ++ as = N.alphabet.ids) :
    as.foldlM (fun A a => A.pushInOrder? i a i) A =
      some (as.foldl (fun A _ => A.pushSuccessor i i) A) := by
  induction as generalizing A bs with
  | nil => rfl
  | cons a as ih =>
    obtain ⟨row, hrow, hsize⟩ := h.length_eq
    have hstep := Arena.pushInOrder?_eq_some (j := i) hrow
      (hsize.trans (NameTable.length_eq_toNat has))
    have hnext := ih (h.push (hi a List.mem_cons_self))
      (fun b hb => hi b (List.mem_cons_of_mem a hb)) (by simp [← has])
    rw [List.foldlM_cons, hstep]
    exact hnext

theorem completeSink?_eq_some (hcap : (run N).arena.size ≤ Index.capacity) :
    completeSink? N (run N).arena = some (completeSink N (run N).arena) := by
  unfold completeSink? completeSink
  cases hsink : (run N).arena.sink? with
  | none => rfl
  | some i =>
    obtain ⟨u, -, hstate, hget, hrow⟩ := exists_sink_run hcap hsink
    refine hrow.foldlM_pushInOrder? (fun a _ => ?_) (List.nil_append _)
    rw [hget, Nfa.stateAfter_snoc_of_sink hstate]

end Construction

/-- **Rows are filled in alphabet order**: with checked rows, the automaton is the same. -/
theorem Nfa.determinize?_eq_some {N : Nfa} (hcap : N.determinize.size ≤ Index.capacity) :
    N.determinize? = some N.determinize := by
  rw [← size_run] at hcap
  unfold Nfa.determinize?
  rw [Construction.run?_eq_some hcap]
  show (Construction.completeSink? N (Construction.run N).arena).bind _ = _
  rw [Construction.completeSink?_eq_some hcap]
  rfl

end FiniteAutomata
