import Mathlib.Data.List.Sort
import FiniteAutomata.Dot.Drawing
import FiniteAutomata.Proofs.ListedNames
import FiniteAutomata.Proofs.OwnDescription
import FiniteAutomata.Proofs.Totality

/-!
# Merged edges

A drawing of a deterministic automaton has one edge for all transitions between the same states.
The transitions are put into groups one after the other (`Dfa.getElem?_foldl_addParallel`), so the
label of an edge lists the symbols that lead from its source to its target (`Dfa.symbolsTo`) in the
order of the alphabet, and every state and symbol stand on just one edge
(`Dfa.Complete.existsUnique_edge`). The groups are sorted, so it does not matter in which order they
are found (`Dfa.mergeSort_eq_parallelSymbols`). A nondeterministic automaton has an edge of its own
for each transition (`Nfa.mem_dotEdges_iff`).

Where no symbol has a comma in its name, the symbols can be told from the label. So the edges of an
automaton that is read determine its successors (`Dfa.Complete.successor_of_dotEdges_eq`).
-/

namespace FiniteAutomata

/-- Earlier in the order by source and then by target. -/
def StateEdge.Before {s : Space} (e f : StateEdge s) : Prop :=
  e.source < f.source ∨ e.source = f.source ∧ e.target < f.target

instance {s : Space} : Std.Irrefl (α := Index s) (· < ·) := ⟨fun _ => Nat.lt_irrefl _⟩

instance {s : Space} : Std.Antisymm (α := Index s) (· < ·) :=
  ⟨fun _ _ hij hji => absurd (Nat.lt_trans hij hji) (Nat.lt_irrefl _)⟩

namespace Dfa

variable {D D' : Dfa} {ts : List DfaTransition} {t : DfaTransition}
  {k : DfaStateId × DfaStateId} {i j : DfaStateId} {a : Symbol} {e f : StateEdge .dfaState}

/-! ## Groups of transitions -/

/-- The symbols of the transitions between two states, in the order of the transitions. -/
def between (ts : List DfaTransition) (k : DfaStateId × DfaStateId) : List Symbol :=
  (ts.filter fun t => (t.source, t.target) = k).map DfaTransition.symbol

theorem between_append_singleton : between (ts ++ [t]) k =
    between ts k ++ if (t.source, t.target) = k then [t.symbol] else [] := by
  rw [between, List.filter_append, List.map_append, between]
  split <;> simp [*]

theorem mem_between : a ∈ between ts k ↔ ⟨k.1, a, k.2⟩ ∈ ts := by
  simp only [between, List.mem_map, List.mem_filter, decide_eq_true_iff]
  constructor
  · rintro ⟨⟨i, a, j⟩, ⟨ht, rfl⟩, rfl⟩
    exact ht
  · exact fun ht => ⟨_, ⟨ht, rfl⟩, rfl⟩

/-- Each group has the symbols of its transitions, and there is none without transitions. -/
theorem getElem?_foldl_addParallel (ts : List DfaTransition) (k : DfaStateId × DfaStateId) :
    (ts.foldl addParallel ∅)[k]? = if between ts k = [] then none else some (between ts k) := by
  -- from the end, where each transition puts its symbol
  induction ts using List.reverseRecOn with
  | nil => simp [between]
  | append_singleton ts t ih =>
    rw [List.foldl_append, List.foldl_cons, List.foldl_nil, addParallel,
      Std.ExtTreeMap.getElem?_alter, between_append_singleton]
    simp only [Std.LawfulEqCmp.compare_eq_iff_eq]
    by_cases hk : (t.source, t.target) = k
    · rw [if_pos hk, if_pos hk, hk, ih, if_neg (List.append_ne_nil_of_right_ne_nil _
        (List.cons_ne_nil _ _))]
      by_cases hnil : between ts k = []
      · rw [if_pos hnil, hnil, Option.getD_none]
      · rw [if_neg hnil, Option.getD_some]
    · rw [if_neg hk, if_neg hk, ih, List.append_nil]

theorem mem_dotEdges : e ∈ D.dotEdges ↔ between D.transitions (e.source, e.target) ≠ [] ∧
    e.label =
      Text.enumerate ((between D.transitions (e.source, e.target)).map D.alphabet.text) := by
  obtain ⟨i, label, j⟩ := e
  simp only [dotEdges, parallelSymbols, List.mem_map]
  constructor
  · rintro ⟨⟨⟨i', j'⟩, as⟩, hmem, heq⟩
    rw [Std.ExtTreeMap.mem_toList_iff_getElem?_eq_some, getElem?_foldl_addParallel] at hmem
    cases heq
    split at hmem
    · cases hmem
    · obtain rfl := Option.some.inj hmem
      exact ⟨‹_›, rfl⟩
  · rintro ⟨hne, rfl⟩
    refine ⟨((i, j), between D.transitions (i, j)), ?_, rfl⟩
    rw [Std.ExtTreeMap.mem_toList_iff_getElem?_eq_some, getElem?_foldl_addParallel, if_neg hne]

/-- The groups in any order, once they are sorted by source and target. -/
theorem mergeSort_eq_parallelSymbols (D : Dfa)
    {groups : List ((DfaStateId × DfaStateId) × List Symbol)}
    (h : groups.Perm D.parallelSymbols.toList) :
    groups.mergeSort (fun g g' => (comparePair g.1 g'.1).isLE) = D.parallelSymbols.toList :=
  mergeSort_eq_of_perm h Std.ExtTreeMap.ordered_keys_toList

/-- Edges are ordered by source and then by target, and no two have the same ones. -/
theorem pairwise_dotEdges (D : Dfa) : D.dotEdges.Pairwise StateEdge.Before := by
  refine List.pairwise_map.2 (Std.ExtTreeMap.ordered_keys_toList.imp fun {x y} hlt => ?_)
  rcases comparePair_eq_lt.1 hlt with hsource | ⟨hsource, htarget⟩
  · exact .inl (Index.compare_eq_lt.1 hsource)
  · exact .inr ⟨hsource, Index.compare_eq_lt.1 htarget⟩

/-! ## The symbols of an edge -/

/-- The symbols that lead from `i` to `j`, in the order of the alphabet. -/
def symbolsTo (D : Dfa) (i j : DfaStateId) : List Symbol :=
  D.alphabet.ids.filter fun a => D.successor i a = .ok j

theorem has_of_mem_symbolsTo (h : a ∈ D.symbolsTo i j) : D.alphabet.Has a :=
  NameTable.mem_ids.1 (List.mem_filter.1 h).1

namespace Complete

variable (h : D.Complete) (h' : D'.Complete)
include h

theorem mem_symbolsTo : a ∈ D.symbolsTo i j ↔ D.successor i a = .ok j := by
  rw [symbolsTo, List.mem_filter, NameTable.mem_ids, decide_eq_true_iff]
  exact and_iff_right_of_imp fun hj => (h.lt_of_successor hj).2

/-- The transitions between two states come in the order of the alphabet. -/
theorem between_transitions (i j : DfaStateId) :
    between D.transitions (i, j) = D.symbolsTo i j := by
  have hbetween : (between D.transitions (i, j)).Pairwise (· < ·) := by
    refine List.pairwise_map.2 ((h.pairwise_transitions.filter _).imp_of_mem ?_)
    intro t u ht hu hlt
    have hkeys : (t.source, t.target) = (u.source, u.target) :=
      (of_decide_eq_true (List.mem_filter.1 ht).2).trans
        (of_decide_eq_true (List.mem_filter.1 hu).2).symm
    -- the sources are the same, so the transitions are ordered by their symbols
    rcases hlt with hsource | ⟨-, hsymbol⟩
    · rw [(Prod.mk.inj hkeys).1] at hsource
      exact absurd hsource (Nat.lt_irrefl _)
    · exact hsymbol
  have hsymbols : (D.symbolsTo i j).Pairwise (· < ·) := D.alphabet.pairwise_ids.filter _
  refine hbetween.eq_of_mem_iff hsymbols fun a => ?_
  rw [mem_between, h.mem_transitions, h.mem_symbolsTo]

theorem mem_dotEdges_iff : e ∈ D.dotEdges ↔ D.symbolsTo e.source e.target ≠ [] ∧
    e.label = Text.enumerate ((D.symbolsTo e.source e.target).map D.alphabet.text) := by
  rw [mem_dotEdges, h.between_transitions]

/-- There is an edge where some symbol leads. -/
theorem exists_edge_iff : (∃ label, ⟨i, label, j⟩ ∈ D.dotEdges) ↔
    ∃ a, D.alphabet.Has a ∧ D.successor i a = .ok j := by
  have hedge : (∃ label, ⟨i, label, j⟩ ∈ D.dotEdges) ↔ D.symbolsTo i j ≠ [] := by
    simp only [h.mem_dotEdges_iff, exists_and_left, exists_eq, and_true]
  rw [hedge]
  constructor
  · intro hne
    obtain ⟨a, ha⟩ := List.exists_mem_of_ne_nil _ hne
    have hj := h.mem_symbolsTo.1 ha
    exact ⟨a, (h.lt_of_successor hj).2, hj⟩
  · rintro ⟨a, -, hj⟩
    exact List.ne_nil_of_mem (h.mem_symbolsTo.2 hj)

theorem label_eq (he : e ∈ D.dotEdges) : ∃ names,
    (D.symbolsTo e.source e.target).mapM D.alphabet.name = .ok names ∧
      e.label = ", ".intercalate names := by
  exact ⟨_, mapM_eq_ok_map fun a ha => Alphabet.name_eq (has_of_mem_symbolsTo ha),
    (h.mem_dotEdges_iff.1 he).2⟩

/-- Each state and symbol stand on one edge. -/
theorem existsUnique_edge (hi : i.toNat < D.size) (ha : D.alphabet.Has a) :
    ∃! e, e ∈ D.dotEdges ∧ e.source = i ∧ a ∈ D.symbolsTo e.source e.target := by
  obtain ⟨j, hj, -⟩ := h.exists_successor hi ha
  obtain ⟨label, hlabel⟩ := h.exists_edge_iff.2 ⟨a, ha, hj⟩
  refine ⟨⟨i, label, j⟩, ⟨hlabel, rfl, h.mem_symbolsTo.2 hj⟩, ?_⟩
  rintro ⟨i', label', j'⟩ ⟨hlabel', rfl, ha'⟩
  obtain rfl : j' = j := Except.ok.inj ((h.mem_symbolsTo.1 ha').symm.trans hj)
  have htext := (h.mem_dotEdges_iff.1 hlabel).2
  have htext' := (h.mem_dotEdges_iff.1 hlabel').2
  rw [StateEdge.mk.injEq]
  exact ⟨rfl, htext'.trans htext.symm, rfl⟩

/-! ## Automata with the same edges -/

include h'

theorem symbolsTo_eq (hcomma : D.alphabet.CommaFree) (halphabet : D.alphabet = D'.alphabet)
    (hedges : D.dotEdges = D'.dotEdges) (hj : D.successor i a = .ok j) :
    D.symbolsTo i j = D'.symbolsTo i j := by
  obtain ⟨label, hlabel⟩ := h.exists_edge_iff.2 ⟨a, (h.lt_of_successor hj).2, hj⟩
  obtain ⟨hne, htext⟩ := h.mem_dotEdges_iff.1 hlabel
  obtain ⟨hne', htext'⟩ := h'.mem_dotEdges_iff.1 (hedges ▸ hlabel)
  have hhas' : ∀ b ∈ D'.symbolsTo i j, D.alphabet.Has b := fun b hb => by
    rw [halphabet]
    exact has_of_mem_symbolsTo hb
  rw [← halphabet] at htext'
  exact NameTable.eq_of_enumerate_text_eq hcomma (fun _ => has_of_mem_symbolsTo) hhas' hne hne'
    (htext.symm.trans htext')

/-- **Edges determine successors** where the symbols can be told from the labels. -/
theorem successor_of_dotEdges_eq (hcomma : D.alphabet.CommaFree)
    (halphabet : D.alphabet = D'.alphabet) (hedges : D.dotEdges = D'.dotEdges)
    (hj : D.successor i a = .ok j) : D'.successor i a = .ok j := by
  have hsymbols := h.symbolsTo_eq h' hcomma halphabet hedges hj
  exact h'.mem_symbolsTo.1 (hsymbols ▸ h.mem_symbolsTo.2 hj)

/-- Where there are symbols, every state is the source of an edge. -/
theorem size_le_of_dotEdges_eq (hcomma : D.alphabet.CommaFree)
    (halphabet : D.alphabet = D'.alphabet) (hsome : D.alphabet.Has a)
    (hedges : D.dotEdges = D'.dotEdges) : D.size ≤ D'.size := by
  refine Nat.not_lt.1 fun hlt => ?_
  have hi : (Index.ofNat D'.size : DfaStateId).toNat = D'.size :=
    Index.toNat_ofNat_of_lt (Nat.lt_of_lt_of_le hlt h.size_le)
  obtain ⟨j, hj, -⟩ := h.exists_successor (i := .ofNat D'.size) (by rwa [hi]) hsome
  have hj' := h.successor_of_dotEdges_eq h' hcomma halphabet hedges hj
  exact Nat.lt_irrefl _ (hi ▸ (h'.lt_of_successor hj').1)

end Complete

end Dfa

namespace Nfa

variable {N N' : Nfa}

/-- There is an edge for each transition, labelled with the name of its symbol or with epsilon. -/
theorem mem_dotEdges_iff {e : StateEdge .state} : e ∈ N.dotEdges ↔
    ∃ l, e.target ∈ N.successors e.source l ∧ N.alphabet.labelName l = .ok e.label := by
  rw [dotEdges, List.mem_map]
  constructor
  · rintro ⟨t, ht, rfl⟩
    rw [mem_transitions] at ht
    exact ⟨t.label, ht, Alphabet.labelName_eq (N.transition_within t ht).label_has⟩
  · rintro ⟨l, hl, hname⟩
    have ht : N.relation.Holds ⟨e.source, l, e.target⟩ := hl
    rw [Alphabet.labelName_eq (N.transition_within _ ht).label_has, Except.ok.injEq] at hname
    exact ⟨⟨e.source, l, e.target⟩, mem_transitions.2 ht, by rw [hname]⟩

/-- Without symbols there is only the start state. -/
theorem size_determinize_eq_one (h : ∀ a, ¬ N.alphabet.Has a) : N.determinize.size = 1 := by
  have hwords : N.words ⊆ [[]] := fun w hw =>
    List.mem_singleton.2 (List.eq_nil_iff_forall_not_mem.2 fun a ha => h a (has_of_mem_words hw ha))
  refine Nat.le_antisymm ?_ N.size_determinize_pos
  rw [size_determinize]
  exact (N.ordered_words.nodup.of_map _).length_le_of_subset hwords

theorem size_eq_of_dotEdges_eq (hcap : N.determinize.size ≤ Index.capacity)
    (hcap' : N'.determinize.size ≤ Index.capacity) (hcomma : N.alphabet.CommaFree)
    (halphabet : N.alphabet = N'.alphabet)
    (hedges : N.determinize.dotEdges = N'.determinize.dotEdges) :
    N.determinize.size = N'.determinize.size := by
  have hD := complete_determinize hcap
  have hD' := complete_determinize hcap'
  have hcomma' : N'.alphabet.CommaFree := halphabet ▸ hcomma
  by_cases hsome : ∃ a, N.alphabet.Has a
  · obtain ⟨a, ha⟩ := hsome
    exact Nat.le_antisymm (hD.size_le_of_dotEdges_eq hD' hcomma halphabet ha hedges)
      (hD'.size_le_of_dotEdges_eq hD hcomma' halphabet.symm (halphabet ▸ ha) hedges.symm)
  · rw [not_exists] at hsome
    rw [size_determinize_eq_one hsome, size_determinize_eq_one (halphabet ▸ hsome)]

/-- **Merging parallel edges loses nothing**: the edges say which symbols lead where, each of them
once, and those of two automata that are read over the same alphabet are the same only if these
have the same successors. -/
theorem dotEdges_determinize :
    (∀ N : Nfa, N.determinize.size ≤ Index.capacity →
      N.determinize.dotEdges.Pairwise StateEdge.Before ∧
      (∀ i j, (∃ e ∈ N.determinize.dotEdges, e.source = i ∧ e.target = j) ↔
        ∃ a, N.alphabet.Has a ∧ N.determinize.successor i a = .ok j) ∧
      (∀ e ∈ N.determinize.dotEdges, ∃ names,
        (N.determinize.symbolsTo e.source e.target).mapM N.alphabet.name = .ok names ∧
          e.label = ", ".intercalate names) ∧
      ∀ (i : DfaStateId) (a : Symbol), i.toNat < N.determinize.size → N.alphabet.Has a →
        ∃! e, e ∈ N.determinize.dotEdges ∧ e.source = i ∧
          a ∈ N.determinize.symbolsTo e.source e.target) ∧
    ∀ bytes bytes' N N', ofBytes bytes = .ok N → ofBytes bytes' = .ok N' →
      N.determinize.size ≤ Index.capacity → N'.determinize.size ≤ Index.capacity →
      N.alphabet = N'.alphabet → N.determinize.dotEdges = N'.determinize.dotEdges →
        ∀ i a, N.determinize.successor i a = N'.determinize.successor i a := by
  refine ⟨fun N hcap => ?_, fun _ _ N N' hread hread' hcap hcap' halphabet hedges i a => ?_⟩
  · have hD := complete_determinize hcap
    refine ⟨N.determinize.pairwise_dotEdges, fun i j => ?_, fun e he => hD.label_eq he,
      fun i a hi ha => hD.existsUnique_edge hi ha⟩
    refine Iff.trans ⟨?_, ?_⟩ hD.exists_edge_iff
    · rintro ⟨e, he, rfl, rfl⟩
      exact ⟨e.label, he⟩
    · rintro ⟨label, hlabel⟩
      exact ⟨_, hlabel, rfl, rfl⟩
  · have hcomma := commaFree_alphabet_of_ofBytes hread
    have hD := complete_determinize hcap
    have hD' := complete_determinize hcap'
    have hsize := size_eq_of_dotEdges_eq hcap hcap' hcomma halphabet hedges
    refine hD.successor_congr hD' hsize (congrArg NameTable.size halphabet) fun hi ha => ?_
    obtain ⟨j, hj, -⟩ := hD.exists_successor hi ha
    rw [hj, hD.successor_of_dotEdges_eq hD' hcomma halphabet hedges hj]

/-- A table of two names. -/
def namePair {s : Space} (x y : String) (h : x ≠ y) : NameTable s :=
  ⟨[x, y], List.nodup_cons.2 ⟨fun hmem => h (List.mem_singleton.1 hmem), List.nodup_singleton y⟩,
    show 2 ≤ Index.capacity by decide⟩

/-- Goes from `A` to `B` on both symbols, and back on one of them. -/
def backAndForth (accepting : List { q : StateId // q.toNat < 2 }) : Nfa :=
  Definition.assemble (namePair "A" "B" (by decide)) (namePair "a" "b" (by decide))
    [⟨⟨.ofNat 0, .symbol (.ofNat 0), .ofNat 1⟩, by decide, Nat.zero_lt_two, by decide⟩,
      ⟨⟨.ofNat 0, .symbol (.ofNat 1), .ofNat 1⟩, by decide, Nat.one_lt_two, by decide⟩,
      ⟨⟨.ofNat 1, .symbol (.ofNat 0), .ofNat 0⟩, by decide, Nat.zero_lt_two, by decide⟩]
    ⟨.ofNat 0, by decide⟩ accepting

/-- A text for such an automaton. -/
def backAndForthText (accepting : String) : List UInt8 :=
  Text.encode ("\n".intercalate
    ["A, B", "a, b", "A,a,B", "A,b,B", "B,a,A", "done", "A", accepting])

/-- Edges do not tell which states accept. -/
theorem dotEdges_determinize_backAndForth : ∃ N N' : Nfa,
    ofBytes (backAndForthText "A") = .ok N ∧ ofBytes (backAndForthText "B") = .ok N' ∧
    N.determinize.size ≤ Index.capacity ∧ N'.determinize.size ≤ Index.capacity ∧
    N.alphabet = N'.alphabet ∧ N.determinize.acceptingStates ≠ N'.determinize.acceptingStates ∧
    N.determinize.dotEdges = [⟨.ofNat 0, "a, b", .ofNat 1⟩, ⟨.ofNat 1, "a", .ofNat 0⟩,
      ⟨.ofNat 1, "b", .ofNat 2⟩, ⟨.ofNat 2, "a, b", .ofNat 2⟩] ∧
    N.determinize.dotEdges = N'.determinize.dotEdges ∧
    N.determinize.dotEdges.Pairwise StateEdge.Before ∧
    ∀ i a, N.determinize.successor i a = N'.determinize.successor i a := by
  have hread : ofBytes (backAndForthText "A") = .ok (backAndForth [⟨.ofNat 0, by decide⟩]) := by
    decide +kernel
  have hread' : ofBytes (backAndForthText "B") = .ok (backAndForth [⟨.ofNat 1, by decide⟩]) := by
    decide +kernel
  have hcap : (backAndForth [⟨.ofNat 0, by decide⟩]).determinize.size ≤ Index.capacity :=
    size_determinize_le_capacity (by decide)
  have hcap' : (backAndForth [⟨.ofNat 1, by decide⟩]).determinize.size ≤ Index.capacity :=
    size_determinize_le_capacity (by decide)
  have hedges : (backAndForth [⟨.ofNat 0, by decide⟩]).determinize.dotEdges =
      (backAndForth [⟨.ofNat 1, by decide⟩]).determinize.dotEdges := by decide +kernel
  obtain ⟨hmerges, hdetermines⟩ := dotEdges_determinize
  exact ⟨_, _, hread, hread', hcap, hcap', rfl, by decide +kernel, by decide +kernel, hedges,
    (hmerges _ hcap).1, hdetermines _ _ _ _ hread hread' hcap hcap' rfl hedges⟩

end Nfa

end FiniteAutomata
