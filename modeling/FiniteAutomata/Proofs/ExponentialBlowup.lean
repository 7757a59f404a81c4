import Mathlib.Data.Finset.Interval
import Mathlib.Data.List.Count
import FiniteAutomata.Proofs.GrowthBound
import FiniteAutomata.Proofs.Totality

/-!
# A family that blows up

`Definition.nthFromLast n` is the automaton for the words whose `n`-th symbol from the end is `a`.
It stays in its state 0 and guesses from there on each `a` that this one is it; the states 1 to `n`
count the symbols since. So after a word it is in state 0 and in the state `k` for each `a` at the
`k`-th place from the end (`mem_reachable_nthFromLast`), and all sets of states with 0 are reached
(`reachesExactly_nthFromLast`). There are `2 ^ n` of them, of which `2 ^ (n - 1)` have `n`
(`Nfa.length_eq_two_pow`).
-/

namespace FiniteAutomata

/-! ## Counting sets between two others -/

namespace Nfa

variable {N : Nfa}

/-- The sets of states that have those at some given positions are `2 ^ k`, where `k` is the number
of the other positions. -/
theorem length_eq_two_pow {L : List DfaState} {A : Finset Nat} (hL : L.Nodup)
    (hA : A ⊆ Finset.range N.size)
    (h : ∀ s, s ∈ L ↔ ∃ T : StateSet, A ⊆ T.positions ∧ T.positions ⊆ Finset.range N.size ∧
      .subset T = s) : L.length = 2 ^ (N.size - A.card) := by
  have himage : L.toFinset =
      (Finset.Icc A (Finset.range N.size)).image fun C => .subset (N.statesAt C) := by
    ext s
    rw [List.mem_toFinset, h, Finset.mem_image]
    constructor
    · rintro ⟨T, hAT, hT, rfl⟩
      refine ⟨T.positions, Finset.mem_Icc.2 ⟨hAT, hT⟩, ?_⟩
      rw [StateSet.positions_inj (positions_statesAt hT)]
    · rintro ⟨C, hC, rfl⟩
      obtain ⟨hAC, hCN⟩ := Finset.mem_Icc.1 hC
      refine ⟨N.statesAt C, ?_, ?_, rfl⟩ <;> rwa [positions_statesAt hCN]
  have hinj : Set.InjOn (fun C => DfaState.subset (N.statesAt C))
      (Finset.Icc A (Finset.range N.size)) := by
    intro C hC C' hC' heq
    have hset : N.statesAt C = N.statesAt C' := DfaState.subset.inj heq
    rw [← positions_statesAt (Finset.mem_Icc.1 hC).2, hset,
      positions_statesAt (Finset.mem_Icc.1 hC').2]
  calc L.length = L.toFinset.card := (List.toFinset_card_of_nodup hL).symm
    _ = (Finset.Icc A (Finset.range N.size)).card := by
        rw [himage, Finset.card_image_of_injOn hinj]
    _ = 2 ^ (N.size - A.card) := by rw [Finset.card_Icc_finset hA, Finset.card_range]

end Nfa

/-! ## The family -/

/-- A transition between states that are named by numbers. -/
def NamedTransition.numbered (i : Nat) (label : String) (j : Nat) : NamedTransition :=
  ⟨i.repr, label, j.repr⟩

/-- Describes the automaton for the words over `a` and `b` whose `n`-th symbol from the end is
`a`. -/
def Definition.nthFromLast (n : Nat) : Definition where
  states := (List.range (n + 1)).map Nat.repr
  symbols := ["a", "b"]
  transitions := [.numbered 0 "a" 0, .numbered 0 "b" 0, .numbered 0 "a" 1] ++
    (List.range' 1 (n - 1)).flatMap fun i => ["a", "b"].map fun label => .numbered i label (i + 1)
  start? := some (Nat.repr 0)
  accepting := [n.repr]

example : Definition.nthFromLast 3 =
    { states := ["0", "1", "2", "3"]
      symbols := ["a", "b"]
      transitions := [⟨"0", "a", "0"⟩, ⟨"0", "b", "0"⟩, ⟨"0", "a", "1"⟩, ⟨"1", "a", "2"⟩,
        ⟨"1", "b", "2"⟩, ⟨"2", "a", "3"⟩, ⟨"2", "b", "3"⟩]
      start? := some "0"
      accepting := ["3"] } := by
  decide +kernel

/-- A symbol leads from 0 to 0 and from each state to the next one, from 0 to 1 only if it is
`a`. -/
def Shifts (i : Nat) (a : Symbol) (j : Nat) : Prop :=
  i = 0 ∧ j = 0 ∨ j = i + 1 ∧ (i = 0 → a = .ofNat 0)

theorem NamedTransition.numbered_inj {i j i' j' : Nat} {label label' : String} :
    numbered i label j = numbered i' label' j' ↔ i = i' ∧ label = label' ∧ j = j' := by
  simp [numbered, Nat.repr_inj]

theorem isReserved_repr (k : Nat) : isReserved k.repr = false := by
  obtain ⟨c, cs, hcs⟩ := List.exists_cons_of_ne_nil (Nat.toDigits_ne_nil (n := k) (b := 10))
  have hdigit : c.isDigit = true :=
    Nat.isDigit_of_mem_toDigits (by decide) (by decide) (hcs ▸ List.mem_cons_self)
  have hhead : k.repr.toList.head? = some c := by rw [Nat.toList_repr, hcs, List.head?_cons]
  refine isReserved_of_head? hhead ?_ ?_
  · rintro rfl
    cases hdigit
  · rintro rfl
    cases hdigit

namespace Definition

variable {n : Nat} {N : Nfa} {w : List Symbol} {a : Symbol} {q p : StateId} {i j : Nat}
  {label : String} {S T : StateSet} {l : Label}

theorem mem_transitions_nthFromLast (hpos : 1 ≤ n) :
    .numbered i label j ∈ (nthFromLast n).transitions ↔ (label = "a" ∨ label = "b") ∧ j ≤ n ∧
      (i = 0 ∧ j = 0 ∨ j = i + 1 ∧ (i = 0 → label = "a")) := by
  simp only [nthFromLast, List.mem_append, List.mem_cons, List.not_mem_nil, or_false,
    List.mem_flatMap, List.mem_map, List.mem_range'_1, exists_eq_or_imp, exists_eq_left,
    NamedTransition.numbered_inj]
  constructor
  · rintro ((⟨rfl, rfl, rfl⟩ | ⟨rfl, rfl, rfl⟩ | ⟨rfl, rfl, rfl⟩) |
      ⟨k, hk, ⟨rfl, rfl, rfl⟩ | ⟨rfl, rfl, rfl⟩⟩)
    · simp
    · simp
    · simpa using hpos
    · exact ⟨.inl rfl, by omega, .inr ⟨rfl, fun _ => rfl⟩⟩
    · exact ⟨.inr rfl, by omega, .inr ⟨rfl, fun hzero => by omega⟩⟩
  · rintro ⟨hlabel, hj, ⟨rfl, rfl⟩ | ⟨rfl, ha⟩⟩
    · rcases hlabel with rfl | rfl <;> simp
    · by_cases hi : i = 0
      · subst hi
        obtain rfl := ha rfl
        simp
      · refine .inr ⟨i, by omega, ?_⟩
        rcases hlabel with rfl | rfl <;> simp

theorem exists_numbered_of_mem {t : NamedTransition} (h : t ∈ (nthFromLast n).transitions) :
    ∃ i label j, t = .numbered i label j := by
  rcases List.mem_append.1 h with h | h
  · simp only [List.mem_cons, List.not_mem_nil, or_false] at h
    rcases h with rfl | rfl | rfl <;> exact ⟨_, _, _, rfl⟩
  · obtain ⟨i, -, h⟩ := List.mem_flatMap.1 h
    obtain ⟨label, -, rfl⟩ := List.mem_map.1 h
    exact ⟨i, label, i + 1, rfl⟩

theorem find?_states_nthFromLast (hn : n < Index.capacity) {name : String} :
    NameTable.find? (.ofList (nthFromLast n).states) name = some q ↔
      q.toNat ≤ n ∧ q.toNat.repr = name := by
  refine (NameTable.find?_numbered (fun _ _ _ _ h => Nat.repr_inj.1 h)
    (Nat.succ_le_of_lt hn)).trans ?_
  rw [Nat.lt_succ_iff]

theorem valid_nthFromLast (hpos : 1 ≤ n) (hn : n < Index.capacity) : (nthFromLast n).Valid := by
  have hfind {i : Nat} (hi : i ≤ n) :
      NameTable.find? (.ofList (nthFromLast n).states) i.repr = some (.ofNat i : StateId) := by
    have hid : (Index.ofNat i : StateId).toNat = i :=
      Index.toNat_ofNat_of_lt (Nat.lt_of_le_of_lt hi hn)
    rw [find?_states_nthFromLast hn, hid]
    exact ⟨hi, rfl⟩
  have hlabel {label : String} (h : label = "a" ∨ label = "b") :
      ∃ l, Alphabet.label? (.ofList (nthFromLast n).symbols) label = some l := by
    rcases h with rfl | rfl
    · exact ⟨.symbol (.ofNat 0), rfl⟩
    · exact ⟨.symbol (.ofNat 1), rfl⟩
  refine ⟨?_, fun name hname => ?_, fun t ht => ?_, ⟨_, rfl, _, hfind (Nat.zero_le n)⟩, ?_⟩
  · simp [nthFromLast]
  · rcases hname with hname | hname
    · obtain ⟨i, -, rfl⟩ := List.mem_map.1 hname
      exact isReserved_repr i
    · have hletters : ∀ name ∈ ["a", "b"], isReserved name = false := by decide
      exact hletters name hname
  · obtain ⟨i, label, j, rfl⟩ := exists_numbered_of_mem ht
    obtain ⟨hletter, hj, hij⟩ := (mem_transitions_nthFromLast hpos).1 ht
    obtain ⟨l, hl⟩ := hlabel hletter
    exact ⟨⟨_, l, _⟩, hfind (by omega), hl, hfind hj⟩
  · intro name hname
    obtain rfl := List.mem_singleton.1 hname
    exact ⟨_, hfind (Nat.le_refl n)⟩

/-! ## What the automaton remembers -/

section

variable (hpos : 1 ≤ n) (hn : n < Index.capacity) (hd : (nthFromLast n).Describes N)
include hn hd

theorem has_state_nthFromLast : N.states.Has q ↔ q.toNat ≤ n := by
  rw [hd.states_eq, ← Nat.lt_succ_iff]
  exact NameTable.has_numbered (fun _ _ _ _ h => Nat.repr_inj.1 h) (Nat.succ_le_of_lt hn)

theorem start_nthFromLast : N.start.toNat = 0 := by
  obtain ⟨name, hstart, hname⟩ := hd.start
  obtain rfl : Nat.repr 0 = name := Option.some.inj hstart
  rw [hd.states_eq, find?_states_nthFromLast hn] at hname
  exact Nat.repr_inj.1 hname.2

theorem mem_accepting_nthFromLast : q ∈ N.accepting ↔ q.toNat = n := by
  have hmem : q ∈ N.accepting ↔ N.states.find? n.repr = some q := by
    rw [hd.mem_accepting]
    exact ⟨fun ⟨_, hname, hq⟩ => List.mem_singleton.1 hname ▸ hq,
      fun hq => ⟨_, List.mem_singleton_self _, hq⟩⟩
  rw [hmem, hd.states_eq, find?_states_nthFromLast hn, Nat.repr_inj]
  exact and_iff_right_of_imp Nat.le_of_eq

omit hn in
theorem has_symbol_nthFromLast : N.alphabet.Has a ↔ a = .ofNat 0 ∨ a = .ofNat 1 := by
  have hhas : N.alphabet.Has a ↔ a.toNat < 2 := by
    rw [hd.alphabet_eq]
    rfl
  rw [hhas]
  constructor
  · intro h
    have hcases : a.toNat = 0 ∨ a.toNat = 1 := by omega
    exact hcases.imp Index.ext_toNat Index.ext_toNat
  · rintro (rfl | rfl) <;> decide

include hpos

theorem mem_successors_nthFromLast : p ∈ N.successors q l ↔
    ∃ a, l = .symbol a ∧ N.alphabet.Has a ∧ q.toNat ≤ n ∧ p.toNat ≤ n ∧
      Shifts q.toNat a p.toNat := by
  have ha : N.alphabet.label? "a" = some (.symbol (.ofNat 0)) := by
    rw [hd.alphabet_eq]
    rfl
  have hb : N.alphabet.label? "b" = some (.symbol (.ofNat 1)) := by
    rw [hd.alphabet_eq]
    rfl
  have hfind {name : String} {r : StateId} :
      N.states.find? name = some r ↔ r.toNat ≤ n ∧ r.toNat.repr = name := by
    rw [hd.states_eq, find?_states_nthFromLast hn]
  constructor
  · intro h
    obtain ⟨t, ht, hdenotes⟩ := hd.exists_denotes h
    obtain ⟨i, label, j, rfl⟩ := exists_numbered_of_mem ht
    obtain ⟨hlabel, -, hij⟩ := (mem_transitions_nthFromLast hpos).1 ht
    obtain ⟨hq, hi⟩ := hfind.1 hdenotes.source
    obtain ⟨hp, hj⟩ := hfind.1 hdenotes.target
    obtain rfl := Nat.repr_inj.1 hi
    obtain rfl := Nat.repr_inj.1 hj
    have hl := hdenotes.label
    rcases hlabel with rfl | rfl
    · obtain rfl := Option.some.inj (ha.symm.trans hl)
      refine ⟨.ofNat 0, rfl, (has_symbol_nthFromLast hd).2 (.inl rfl), hq, hp, ?_⟩
      exact hij.imp id fun ⟨hnext, _⟩ => ⟨hnext, fun _ => rfl⟩
    · obtain rfl := Option.some.inj (hb.symm.trans hl)
      refine ⟨.ofNat 1, rfl, (has_symbol_nthFromLast hd).2 (.inr rfl), hq, hp, ?_⟩
      exact hij.imp id fun ⟨hnext, hzero⟩ => ⟨hnext, fun h => absurd (hzero h) (by decide)⟩
  · rintro ⟨a, rfl, hsymbol, hq, hp, hshifts⟩
    have hmove {label : String} (hletter : label = "a" ∨ label = "b")
        (hlabel : N.alphabet.label? label = some (.symbol a))
        (hstep : a = .ofNat 0 → label = "a") : p ∈ N.successors q (.symbol a) := by
      refine (hd.mem_successors_iff (hfind.2 ⟨hq, rfl⟩) (hfind.2 ⟨hp, rfl⟩)).2 ⟨label, ?_, hlabel⟩
      refine (mem_transitions_nthFromLast hpos).2 ⟨hletter, hp, ?_⟩
      exact hshifts.imp id fun ⟨hnext, hzero⟩ => ⟨hnext, fun h => hstep (hzero h)⟩
    rcases (has_symbol_nthFromLast hd).1 hsymbol with rfl | rfl
    · exact hmove (.inl rfl) ha fun _ => rfl
    · exact hmove (.inr rfl) hb fun h => absurd h (by decide)

theorem epsilonClosure_nthFromLast : N.epsilonClosure S = S := by
  refine Nfa.epsilonClosure_eq_self fun q p hp => ?_
  obtain ⟨a, ha, -⟩ := (mem_successors_nthFromLast hpos hn hd).1 hp
  cases ha

theorem mem_reach_nthFromLast (ha : N.alphabet.Has a) :
    p ∈ N.reach S a ↔ p.toNat ≤ n ∧ ∃ q ∈ S, q.toNat ≤ n ∧ Shifts q.toNat a p.toNat := by
  rw [Nfa.reach, epsilonClosure_nthFromLast hpos hn hd, Nfa.mem_moves]
  constructor
  · rintro ⟨q, hq, hp⟩
    obtain ⟨b, hb, -, hqn, hpn, hshifts⟩ := (mem_successors_nthFromLast hpos hn hd).1 hp
    obtain rfl := Label.symbol.inj hb
    exact ⟨hpn, q, hq, hqn, hshifts⟩
  · rintro ⟨hpn, q, hq, hqn, hshifts⟩
    exact ⟨q, hq, (mem_successors_nthFromLast hpos hn hd).2 ⟨a, rfl, ha, hqn, hpn, hshifts⟩⟩

/-- After a word, the automaton is in its first state and in those that count the symbols since one
of the last `n` occurrences of `a`. -/
theorem mem_reachable_nthFromLast (hw : ∀ a ∈ w, N.alphabet.Has a) : p ∈ N.reachable w ↔
    p.toNat = 0 ∨ ∃ k, p.toNat = k + 1 ∧ k < n ∧ w.reverse[k]? = some (.ofNat 0) := by
  induction w using List.reverseRecOn generalizing p with
  | nil =>
    rw [Nfa.reachable_nil, Nfa.initialSet, epsilonClosure_nthFromLast hpos hn hd,
      StateSet.mem_singleton, ← Index.toNat_inj, start_nthFromLast hn hd]
    simp
  | append_singleton w c ih =>
    -- `c` is the first symbol from the end, and those of `w` come one place further
    have hc := hw c (by simp)
    have hmem {q : StateId} := @ih q fun b hb => hw b (by simp [hb])
    rw [Nfa.reachable_snoc, mem_reach_nthFromLast hpos hn hd hc, List.reverse_append,
      List.reverse_singleton, List.singleton_append]
    have hzero : (Index.ofNat 0 : StateId).toNat = 0 := rfl
    constructor
    · rintro ⟨hp, q, hq, hqn, ⟨-, hp0⟩ | ⟨hnext, ha⟩⟩
      · exact .inl hp0
      · right
        rcases hmem.1 hq with hq0 | ⟨k, hk, hkn, hrecall⟩
        · exact ⟨0, by omega, by omega, by rw [List.getElem?_cons_zero, ha hq0]⟩
        · exact ⟨k + 1, by omega, by omega, by rwa [List.getElem?_cons_succ]⟩
    · rintro (hp0 | ⟨k, hk, hkn, hrecall⟩)
      · exact ⟨by omega, .ofNat 0, hmem.2 (.inl hzero), by omega, .inl ⟨hzero, hp0⟩⟩
      · cases k with
        | zero =>
          rw [List.getElem?_cons_zero, Option.some.injEq] at hrecall
          exact ⟨by omega, .ofNat 0, hmem.2 (.inl hzero), by omega,
            .inr ⟨by omega, fun _ => hrecall⟩⟩
        | succ k =>
          rw [List.getElem?_cons_succ] at hrecall
          have hid : (Index.ofNat (k + 1) : StateId).toNat = k + 1 :=
            Index.toNat_ofNat_of_lt (by omega)
          exact ⟨by omega, .ofNat (k + 1), hmem.2 (.inr ⟨k, hid, by omega, hrecall⟩), by omega,
            .inr ⟨by omega, fun h => by omega⟩⟩

end

/-- A word whose last symbols are `a` where `T` has a state. -/
def recalling (n : Nat) (T : StateSet) : List Symbol :=
  ((List.range n).map fun k => if .ofNat (k + 1) ∈ T then .ofNat 0 else .ofNat 1).reverse

theorem getElem?_reverse_recalling {k : Nat} :
    (recalling n T).reverse[k]? = some (.ofNat 0) ↔ k < n ∧ .ofNat (k + 1) ∈ T := by
  have hne : (.ofNat 1 : Symbol) ≠ .ofNat 0 := by decide
  rw [recalling, List.reverse_reverse, List.getElem?_map, Option.map_eq_some_iff]
  constructor
  · rintro ⟨j, hj, hsymbol⟩
    obtain ⟨hlt, hjk⟩ := List.getElem?_eq_some_iff.1 hj
    rw [List.length_range] at hlt
    rw [List.getElem_range] at hjk
    subst hjk
    split at hsymbol
    · exact ⟨hlt, ‹_›⟩
    · exact absurd hsymbol hne
  · rintro ⟨hk, hT⟩
    exact ⟨k, by simp [hk], if_pos hT⟩

/-- **The sets that are reached are those that have the first state.** -/
theorem reachesExactly_nthFromLast (hpos : 1 ≤ n) (hn : n < Index.capacity)
    (hd : (nthFromLast n).Describes N) :
    N.ReachesExactly T ↔ .ofNat 0 ∈ T ∧ ∀ q ∈ T, q.toNat ≤ n := by
  rw [Nfa.reachesExactly_iff]
  constructor
  · rintro ⟨w, hw, rfl⟩
    refine ⟨(mem_reachable_nthFromLast hpos hn hd hw).2 (.inl rfl), fun q hq => ?_⟩
    exact (has_state_nthFromLast hn hd).1 (Nfa.has_of_mem_reachable hq)
  · rintro ⟨hzero, hT⟩
    have hw : ∀ a ∈ recalling n T, N.alphabet.Has a := by
      intro a ha
      obtain ⟨k, -, rfl⟩ := List.mem_map.1 (List.mem_reverse.1 ha)
      rw [has_symbol_nthFromLast hd]
      split
      · exact .inl rfl
      · exact .inr rfl
    refine ⟨recalling n T, hw, StateSet.ext fun p => ?_⟩
    simp only [mem_reachable_nthFromLast hpos hn hd hw, getElem?_reverse_recalling]
    constructor
    · rintro (hp | ⟨k, hk, -, -, hmem⟩)
      · obtain rfl : p = .ofNat 0 := Index.ext_toNat hp
        exact hzero
      · rwa [← hk, Index.ofNat_toNat] at hmem
    · intro hp
      have hle := hT p hp
      cases hk : p.toNat with
      | zero => exact .inl rfl
      | succ k =>
        refine .inr ⟨k, rfl, by omega, by omega, ?_⟩
        rwa [← hk, Index.ofNat_toNat]

end Definition

/-! ## What determinizing makes of it -/

theorem Dfa.Complete.length_acceptingStates {D : Dfa} (h : D.Complete) :
    D.acceptingStates.length = D.accepting.toList.count true := by
  have hlist : D.stateIds.map D.acceptsAt = D.accepting.toList := by
    refine List.ext_getElem (by simp [stateIds, h.accepting_size]) fun k hk hk' => ?_
    rw [Array.length_toList, h.accepting_size] at hk'
    have hid : (Index.ofNat k : DfaStateId).toNat = k :=
      Index.toNat_ofNat_of_lt (Nat.lt_of_lt_of_le hk' h.size_le)
    have hlt : k < D.accepting.size := h.accepting_size ▸ hk'
    simp [stateIds, acceptsAt, hid, hlt]
  calc D.acceptingStates.length = D.stateIds.countP D.acceptsAt :=
        List.countP_eq_length_filter.symm
    _ = (D.stateIds.map D.acceptsAt).count true := by
        rw [List.count, List.countP_map]
        exact List.countP_congr fun i _ => by simp
    _ = D.accepting.toList.count true := by rw [hlist]

namespace Definition

variable {n : Nat} {N : Nfa} {s : DfaState} {T : StateSet}

section

variable (hpos : 1 ≤ n) (hn : n < Index.capacity) (hd : (nthFromLast n).Describes N)
include hn hd

theorem size_nthFromLast : N.size = n + 1 := by
  rw [Nfa.size, hd.states_eq]
  exact NameTable.size_numbered (fun _ _ _ _ h => Nat.repr_inj.1 h) (Nat.succ_le_of_lt hn)

theorem positions_subset_iff_nthFromLast :
    T.positions ⊆ Finset.range N.size ↔ ∀ q ∈ T, q.toNat ≤ n := by
  rw [size_nthFromLast hn hd]
  constructor
  · intro h q hq
    exact Nat.le_of_lt_succ (Finset.mem_range.1 (h (StateSet.toNat_mem_positions.2 hq)))
  · intro h k hk
    obtain ⟨q, hq, rfl⟩ := StateSet.mem_positions.1 hk
    exact Finset.mem_range.2 (Nat.lt_succ_of_le (h q hq))

include hpos

theorem mem_states_nthFromLast : s ∈ N.determinize.states.toList ↔
    ∃ T : StateSet, (.ofNat 0 ∈ T ∧ ∀ q ∈ T, q.toNat ≤ n) ∧ .subset T = s := by
  rw [Nfa.mem_states_determinize]
  simp only [reachesExactly_nthFromLast hpos hn hd]
  refine exists_congr fun T => and_congr_right fun hT => ?_
  rw [Construction.stateFor_eq_subset_iff.2 ⟨rfl, _, hT.1⟩]

theorem size_determinize_nthFromLast : N.determinize.size = 2 ^ n := by
  have hcount := Nfa.length_eq_two_pow (N := N) (A := {0}) N.nodup_states_determinize
    (by simp [size_nthFromLast hn hd]) fun s => by
      rw [mem_states_nthFromLast hpos hn hd]
      refine exists_congr fun T => ?_
      rw [positions_subset_iff_nthFromLast hn hd, Finset.singleton_subset_iff, and_assoc]
      exact and_congr_left fun _ => (StateSet.toNat_mem_positions (q := .ofNat 0)).symm
  rw [Array.length_toList, size_nthFromLast hn hd, Finset.card_singleton,
    Nat.add_sub_cancel] at hcount
  exact hcount

theorem countP_states_nthFromLast :
    (N.determinize.states.toList.countP fun s => .ofNat n ∈ s.members) = 2 ^ (n - 1) := by
  have hid : (Index.ofNat n : StateId).toNat = n := Index.toNat_ofNat_of_lt hn
  have hnodup : (N.determinize.states.toList.filter fun s => .ofNat n ∈ s.members).Nodup :=
    N.nodup_states_determinize.filter _
  have hcount := Nfa.length_eq_two_pow (N := N) (A := {0, n}) hnodup
    (by simp [Finset.insert_subset_iff, size_nthFromLast hn hd]) fun s => by
      rw [List.mem_filter, mem_states_nthFromLast hpos hn hd, decide_eq_true_iff]
      have hfirst {T : StateSet} : 0 ∈ T.positions ↔ .ofNat 0 ∈ T :=
        StateSet.toNat_mem_positions (q := .ofNat 0)
      have hlast {T : StateSet} : n ∈ T.positions ↔ .ofNat n ∈ T := by
        rw [← StateSet.toNat_mem_positions (q := .ofNat n), hid]
      simp only [Finset.insert_subset_iff, Finset.singleton_subset_iff, hfirst, hlast,
        positions_subset_iff_nthFromLast hn hd]
      constructor
      · rintro ⟨⟨T, ⟨hzero, hT⟩, rfl⟩, hmem⟩
        exact ⟨T, ⟨hzero, hmem⟩, hT, rfl⟩
      · rintro ⟨T, ⟨hzero, hmem⟩, hT, rfl⟩
        exact ⟨⟨T, ⟨hzero, hT⟩, rfl⟩, hmem⟩
  rw [List.countP_eq_length_filter, hcount, size_nthFromLast hn hd,
    Finset.card_pair (Nat.ne_of_lt hpos), Nat.add_sub_add_right]

omit hpos in
/-- The states that accept are those that have the last state. -/
theorem accepting_determinize_nthFromLast : N.determinize.accepting =
    N.determinize.states.map fun s => decide (.ofNat n ∈ s.members) := by
  have hid : (Index.ofNat n : StateId).toNat = n := Index.toNat_ofNat_of_lt hn
  rw [Nfa.accepting_determinize]
  congr 1
  funext s
  rw [Bool.eq_iff_iff, DfaState.isAcceptingFor_iff, decide_eq_true_iff]
  simp only [mem_accepting_nthFromLast hn hd]
  constructor
  · rintro ⟨p, hp, hmem⟩
    rwa [← hp, Index.ofNat_toNat]
  · exact fun hmem => ⟨.ofNat n, hid, hmem⟩

theorem length_acceptingStates_nthFromLast (hcap : N.determinize.size ≤ Index.capacity) :
    N.determinize.acceptingStates.length = 2 ^ (n - 1) := by
  rw [(Nfa.complete_determinize hcap).length_acceptingStates,
    accepting_determinize_nthFromLast hn hd, Array.toList_map, List.count, List.countP_map,
    ← countP_states_nthFromLast hpos hn hd]
  exact List.countP_congr fun s _ => by simp

theorem sink?_determinize_nthFromLast : N.determinize.sink? = none := by
  rw [Option.eq_none_iff_forall_ne_some]
  intro i hi
  obtain ⟨k, hk, -⟩ := Nfa.sink?_determinize_iff.1 hi
  have hmem : .sink ∈ N.determinize.states.toList :=
    Array.mem_toList_iff.2 (Array.mem_of_getElem? hk)
  obtain ⟨T, -, hT⟩ := (mem_states_nthFromLast hpos hn hd).1 hmem
  cases hT

end

/-- **Determinizing the automaton for the `n`-th symbol from the end makes `2 ^ n` states**: one for
each set of states that has the first one. Half of them have the last state, and those accept. -/
theorem determinize_nthFromLast (n : Nat) (hpos : 1 ≤ n) (hn : n < 2 ^ 32) :
    ∃ N, (nthFromLast n).build = .ok N ∧ N.size = n + 1 ∧ N.determinize.size = 2 ^ n ∧
      N.determinize.states.toList.Nodup ∧
      (∀ s, s ∈ N.determinize.states.toList ↔
        ∃ T : StateSet, (.ofNat 0 ∈ T ∧ ∀ q ∈ T, q.toNat ≤ n) ∧ .subset T = s) ∧
      (N.determinize.states.toList.countP fun s => .ofNat n ∈ s.members) = 2 ^ (n - 1) ∧
      (N.determinize.accepting =
        N.determinize.states.map fun s => decide (.ofNat n ∈ s.members)) ∧
      (n ≤ 32 → N.determinize.acceptingStates.length = 2 ^ (n - 1)) ∧
      N.determinize.sink? = none := by
  obtain ⟨N, hN⟩ := exists_build_iff.2 (valid_nthFromLast hpos hn)
  have hd := describes_of_build hN
  have hsize := size_determinize_nthFromLast hpos hn hd
  refine ⟨N, hN, size_nthFromLast hn hd, hsize, N.nodup_states_determinize,
    fun s => mem_states_nthFromLast hpos hn hd, countP_states_nthFromLast hpos hn hd,
    accepting_determinize_nthFromLast hn hd, fun hle => ?_,
    sink?_determinize_nthFromLast hpos hn hd⟩
  refine length_acceptingStates_nthFromLast hpos hn hd ?_
  rw [hsize]
  exact Nat.pow_le_pow_right (by decide) hle

/-- The third symbol from the end takes eight states, four of which accept. -/
theorem determinize_nthFromLast_three : 1 ≤ 3 ∧ 3 < 2 ^ 32 ∧
    ∃ N, (nthFromLast 3).build = .ok N ∧ N.size = 4 ∧ N.determinize.size = 8 ∧
      N.determinize.acceptingStates.length = 4 ∧ N.determinize.sink? = none := by
  obtain ⟨N, hN, hstates, hsize, -, -, -, -, haccepting, hsink⟩ :=
    determinize_nthFromLast 3 (by decide) (by decide)
  exact ⟨by decide, by decide, N, hN, hstates, hsize, haccepting (by decide), hsink⟩

end Definition

end FiniteAutomata
