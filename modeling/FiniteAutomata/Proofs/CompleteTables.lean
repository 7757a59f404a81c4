import FiniteAutomata.Dfa.Basic

/-!
# Automata with complete tables

`D.Complete`: the lists of an automaton are as long as they should be, every row leads to states of
the automaton, and every member of a state has a name. Then no query about an id below `D.size` and
a symbol of the alphabet fails (`exists_state`, `Complete.exists_isAccepting`,
`Complete.exists_successor`, `Complete.stateLabel_eq`), and `D.transitions` lists the successors of
all states on all symbols in order (`Complete.mem_transitions`, `Complete.pairwise_transitions`,
`Complete.length_transitions`).
-/

namespace FiniteAutomata

/-- Earlier in the order by source and then by symbol. -/
def DfaTransition.Before (t u : DfaTransition) : Prop :=
  t.source < u.source ∨ t.source = u.source ∧ t.symbol < u.symbol

/-- Numbered entries come in the order of their numbers. -/
theorem pairwise_zipIdx {α : Type} (l : List α) : l.zipIdx.Pairwise fun x y => x.2 < y.2 := by
  have h := List.pairwise_lt_range' (s := 0) (n := l.length)
  rw [← List.zipIdx_map_snd] at h
  exact List.pairwise_map.1 h

namespace Dfa

variable {D D' : Dfa} {i j : DfaStateId} {a : Symbol} {s : DfaState}

/-- The tables of an automaton fit together (module doc). -/
structure Complete (D : Dfa) : Prop where
  size_le : D.size ≤ Index.capacity
  accepting_size : D.accepting.size = D.size
  rows_size : D.rows.size = D.size
  row_size : ∀ row ∈ D.rows, row.size = D.alphabet.size
  target_lt : ∀ row ∈ D.rows, ∀ j ∈ row, j.toNat < D.size
  has_member : ∀ S, .subset S ∈ D.states → ∀ q ∈ S, D.memberNames.Has q

/-! ## Queries -/

theorem lt_size_of_state (h : D.state i = .ok s) : i.toNat < D.size :=
  (Array.getElem?_eq_some_iff.1 (Index.read_eq_ok_iff.1 h)).1

theorem exists_state (hi : i.toNat < D.size) : ∃ s, D.state i = .ok s :=
  ⟨_, Index.read_eq_ok_iff.2 (Array.getElem?_eq_getElem hi)⟩

theorem successor_eq_ok_iff : D.successor i a = .ok j ↔
    ∃ row, D.rows[i.toNat]? = some row ∧ row[a.toNat]? = some j := by
  unfold successor
  cases hrow : i.read D.rows with
  | error e =>
    have hnone : ∀ row, D.rows[i.toNat]? ≠ some row := by
      intro row hrow'
      rw [← Index.read_eq_ok_iff, hrow] at hrow'
      cases hrow'
    exact iff_of_false (fun h => nomatch h) fun ⟨row, h, _⟩ => hnone row h
  | ok row =>
    rw [Index.read_eq_ok_iff] at hrow
    simp only [hrow, Option.some.injEq, exists_eq_left']
    exact Index.read_eq_ok_iff

theorem Complete.exists_isAccepting (h : D.Complete) (hi : i.toNat < D.size) :
    ∃ b, D.isAccepting i = .ok b :=
  ⟨_, Index.read_eq_ok_iff.2 (Array.getElem?_eq_getElem (h.accepting_size ▸ hi))⟩

theorem Complete.isAccepting_eq (h : D.Complete) (hi : i.toNat < D.size) :
    D.isAccepting i = .ok (D.acceptsAt i) := by
  obtain ⟨b, hb⟩ := h.exists_isAccepting hi
  rw [hb, acceptsAt, Index.read_eq_ok_iff.1 hb, Option.getD_some]

theorem Complete.isAccepting_eq_error (h : D.Complete) (hi : D.size ≤ i.toNat) :
    D.isAccepting i = .error (.outOfBounds D.size i.toNat) := by
  rw [isAccepting, Index.read, Array.getElem?_eq_none (h.accepting_size ▸ hi), h.accepting_size]

theorem Complete.isAccepting_congr (h : D.Complete) (h' : D'.Complete) (hsize : D.size = D'.size)
    (haccepts : i.toNat < D.size → D.acceptsAt i = D'.acceptsAt i) :
    D.isAccepting i = D'.isAccepting i := by
  rcases Nat.lt_or_ge i.toNat D.size with hi | hi
  · rw [h.isAccepting_eq hi, h'.isAccepting_eq (hsize ▸ hi), haccepts hi]
  · rw [h.isAccepting_eq_error hi, h'.isAccepting_eq_error (hsize ▸ hi), hsize]

theorem Complete.exists_successor (h : D.Complete) (hi : i.toNat < D.size)
    (ha : D.alphabet.Has a) : ∃ j, D.successor i a = .ok j ∧ j.toNat < D.size := by
  have hlt : i.toNat < D.rows.size := h.rows_size ▸ hi
  have hrow := h.row_size _ (Array.getElem_mem hlt)
  have halt : a.toNat < D.rows[i.toNat].size := hrow ▸ ha
  refine ⟨_, successor_eq_ok_iff.2 ⟨_, Array.getElem?_eq_getElem hlt, ?_⟩,
    h.target_lt _ (Array.getElem_mem hlt) _ (Array.getElem_mem halt)⟩
  exact Array.getElem?_eq_getElem halt

theorem Complete.lt_of_successor (h : D.Complete) (hj : D.successor i a = .ok j) :
    i.toNat < D.size ∧ D.alphabet.Has a := by
  obtain ⟨row, hrow, hget⟩ := successor_eq_ok_iff.1 hj
  obtain ⟨hi, rfl⟩ := Array.getElem?_eq_some_iff.1 hrow
  obtain ⟨ha, -⟩ := Array.getElem?_eq_some_iff.1 hget
  rw [h.row_size _ (Array.getElem_mem hi)] at ha
  exact ⟨h.rows_size ▸ hi, ha⟩

theorem Complete.successor_eq_error_of_state (h : D.Complete) (hi : D.size ≤ i.toNat) (a : Symbol) :
    D.successor i a = .error (.outOfBounds D.size i.toNat) := by
  rw [successor, Index.read, Array.getElem?_eq_none (h.rows_size ▸ hi), h.rows_size]
  rfl

theorem Complete.successor_eq_error_of_symbol (h : D.Complete) (hi : i.toNat < D.size)
    (ha : D.alphabet.size ≤ a.toNat) :
    D.successor i a = .error (.outOfBounds D.alphabet.size a.toNat) := by
  have hlt : i.toNat < D.rows.size := h.rows_size ▸ hi
  have hrow := h.row_size _ (Array.getElem_mem hlt)
  have hread : i.read D.rows = .ok D.rows[i.toNat] :=
    Index.read_eq_ok_iff.2 (Array.getElem?_eq_getElem hlt)
  rw [successor, hread]
  show a.read D.rows[i.toNat] = _
  rw [Index.read, Array.getElem?_eq_none (hrow ▸ ha), hrow]

theorem Complete.successor_congr (h : D.Complete) (h' : D'.Complete) (hsize : D.size = D'.size)
    (halphabet : D.alphabet.size = D'.alphabet.size)
    (hsuccessor : i.toNat < D.size → D.alphabet.Has a → D.successor i a = D'.successor i a) :
    D.successor i a = D'.successor i a := by
  rcases Nat.lt_or_ge i.toNat D.size with hi | hi
  · rcases Nat.lt_or_ge a.toNat D.alphabet.size with ha | ha
    · exact hsuccessor hi ha
    · rw [h.successor_eq_error_of_symbol hi ha,
        h'.successor_eq_error_of_symbol (hsize ▸ hi) (halphabet ▸ ha), halphabet]
  · rw [h.successor_eq_error_of_state hi, h'.successor_eq_error_of_state (hsize ▸ hi), hsize]

/-! ## Labels -/

theorem mapM_memberName {l : List StateId} (h : ∀ q ∈ l, D.memberNames.Has q) :
    l.mapM D.memberName = .ok (l.map D.memberNames.text) := by
  induction l with
  | nil => rfl
  | cons q l ih =>
    obtain ⟨name, hname⟩ := NameTable.exists_name?_of_has (h q List.mem_cons_self)
    have hq : D.memberName q = .ok name := by simp [memberName, hname]
    have htext : D.memberNames.text q = name := by simp [NameTable.text, hname]
    rw [List.mapM_cons, hq, ih fun p hp => h p (List.mem_cons_of_mem q hp), List.map_cons, htext]
    rfl

theorem stateText_of_state (h : D.state i = .ok s) : D.stateText i = D.textOf s := by
  simp [stateText, Index.read_eq_ok_iff.1 h]

/-- A label is what the state is shown as in summaries. -/
theorem Complete.stateLabel_eq (h : D.Complete) (hi : i.toNat < D.size) :
    D.stateLabel i = .ok (D.stateText i) := by
  obtain ⟨s, hs⟩ := exists_state hi
  have hget := Index.read_eq_ok_iff.1 hs
  unfold stateLabel
  rw [hs, stateText_of_state hs]
  cases s with
  | sink => rfl
  | subset S =>
    have hmem := mapM_memberName (h.has_member S (Array.mem_of_getElem? hget))
    show (do return Text.braced (← S.toList.mapM D.memberName)) = _
    rw [hmem]
    rfl

theorem stateLabel_eq_error (hi : D.size ≤ i.toNat) :
    D.stateLabel i = .error (.outOfBounds D.size i.toNat) := by
  rw [stateLabel, state, Index.read, Array.getElem?_eq_none hi]
  rfl

theorem lt_size_of_stateLabel {text : String} (h : D.stateLabel i = .ok text) :
    i.toNat < D.size := by
  refine Nat.lt_of_not_le fun hi => ?_
  rw [stateLabel_eq_error hi] at h
  cases h

theorem Complete.stateLabel_eq_ok_iff (h : D.Complete) {text : String} :
    D.stateLabel i = .ok text ↔ i.toNat < D.size ∧ D.stateText i = text := by
  constructor
  · intro htext
    have hi := lt_size_of_stateLabel htext
    rw [h.stateLabel_eq hi, Except.ok.injEq] at htext
    exact ⟨hi, htext⟩
  · rintro ⟨hi, rfl⟩
    exact h.stateLabel_eq hi

/-! ## The list of transitions -/

theorem Complete.toNat_ofNat_of_row (h : D.Complete) {x : Array DfaStateId × Nat}
    (hx : x ∈ D.rows.toList.zipIdx) :
    D.rows[x.2]? = some x.1 ∧ (Index.ofNat x.2 : DfaStateId).toNat = x.2 := by
  rw [List.mem_zipIdx_iff_getElem?, Array.getElem?_toList] at hx
  have hlt := (Array.getElem?_eq_some_iff.1 hx).1
  exact ⟨hx, Index.toNat_ofNat_of_lt (Nat.lt_of_lt_of_le hlt (h.rows_size ▸ h.size_le))⟩

theorem Complete.toNat_ofNat_of_column (h : D.Complete) {row : Array DfaStateId}
    (hrow : row ∈ D.rows) {x : DfaStateId × Nat} (hx : x ∈ row.toList.zipIdx) :
    row[x.2]? = some x.1 ∧ (Index.ofNat x.2 : Symbol).toNat = x.2 := by
  rw [List.mem_zipIdx_iff_getElem?, Array.getElem?_toList] at hx
  have hlt := (Array.getElem?_eq_some_iff.1 hx).1
  rw [h.row_size row hrow] at hlt
  exact ⟨hx, NameTable.toNat_ofNat_of_lt_size hlt⟩

/-- The transitions are the successors of all states on all symbols. -/
theorem Complete.mem_transitions (h : D.Complete) {t : DfaTransition} :
    t ∈ D.transitions ↔ D.successor t.source t.symbol = .ok t.target := by
  rw [successor_eq_ok_iff]
  refine ⟨fun ht => ?_, fun ⟨row, hrow, hget⟩ => ?_⟩
  · obtain ⟨⟨row, q⟩, hrow, hmap⟩ := List.mem_flatMap.1 ht
    obtain ⟨⟨p, a⟩, hp, rfl⟩ := List.mem_map.1 hmap
    obtain ⟨hget, hq⟩ := h.toNat_ofNat_of_row hrow
    obtain ⟨hget', ha⟩ := h.toNat_ofNat_of_column (Array.mem_of_getElem? hget) hp
    exact ⟨row, by rwa [hq], by rwa [ha]⟩
  · refine List.mem_flatMap.2 ⟨(row, t.source.toNat), ?_, ?_⟩
    · rwa [List.mem_zipIdx_iff_getElem?, Array.getElem?_toList]
    · refine List.mem_map.2 ⟨(t.target, t.symbol.toNat), ?_, by simp⟩
      rwa [List.mem_zipIdx_iff_getElem?, Array.getElem?_toList]

theorem Complete.lt_of_mem_transitions (h : D.Complete) {t : DfaTransition}
    (ht : t ∈ D.transitions) :
    t.source.toNat < D.size ∧ D.alphabet.Has t.symbol ∧ t.target.toNat < D.size := by
  have hsucc := h.mem_transitions.1 ht
  obtain ⟨hsource, hsymbol⟩ := h.lt_of_successor hsucc
  obtain ⟨j, hj, htarget⟩ := h.exists_successor hsource hsymbol
  obtain rfl : j = t.target := Except.ok.inj (hj.symm.trans hsucc)
  exact ⟨hsource, hsymbol, htarget⟩

theorem Complete.pairwise_transitions (h : D.Complete) :
    D.transitions.Pairwise DfaTransition.Before := by
  refine List.pairwise_flatMap.2 ⟨fun x hx => ?_, (pairwise_zipIdx _).imp_of_mem ?_⟩
  · obtain ⟨hget, -⟩ := h.toNat_ofNat_of_row hx
    have hrow := Array.mem_of_getElem? hget
    refine List.pairwise_map.2 ((pairwise_zipIdx _).imp_of_mem fun hy hz hlt => ?_)
    refine .inr ⟨rfl, ?_⟩
    rwa [Index.lt_iff, (h.toNat_ofNat_of_column hrow hy).2, (h.toNat_ofNat_of_column hrow hz).2]
  · intro x y hx hy hlt t ht u hu
    obtain ⟨_, -, rfl⟩ := List.mem_map.1 ht
    obtain ⟨_, -, rfl⟩ := List.mem_map.1 hu
    refine .inl ?_
    rwa [Index.lt_iff, (h.toNat_ofNat_of_row hx).2, (h.toNat_ofNat_of_row hy).2]

theorem Complete.length_transitions (h : D.Complete) :
    D.transitions.length = D.size * D.alphabet.size := by
  unfold transitions
  rw [List.length_flatMap]
  have hconst : D.rows.toList.zipIdx.map (fun x => (x.1.toList.zipIdx.map fun y =>
      (⟨.ofNat x.2, .ofNat y.2, y.1⟩ : DfaTransition)).length) =
      List.replicate D.size D.alphabet.size := by
    refine List.eq_replicate_iff.2 ⟨by simp [h.rows_size], fun n hn => ?_⟩
    obtain ⟨x, hx, rfl⟩ := List.mem_map.1 hn
    obtain ⟨hget, -⟩ := h.toNat_ofNat_of_row hx
    simpa using h.row_size _ (Array.mem_of_getElem? hget)
  exact (congrArg List.sum hconst).trans List.sum_replicate_nat

end Dfa

end FiniteAutomata
