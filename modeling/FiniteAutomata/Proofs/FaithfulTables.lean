import FiniteAutomata.TransitionTable
import FiniteAutomata.Proofs.IsomorphicAutomata
import FiniteAutomata.Proofs.ListedNames
import FiniteAutomata.Proofs.Totality

/-!
# Transition tables are faithful

What the cells of a transition table stand for can be told from the table, if no name of a state has
a comma. The first cell of a row shows the marks of its state (`marks_append_inj`, `decorate_inj`),
and the other cells show successors.

* `Dfa.Legible`: the states are shown differently from each other. Then labels and cells identify
  states (`Legible.labelsIdentify`), and the table says which state follows on which
  (`Legible.sameTables`). Automata are legible if they are determinized from ones without commas in
  the names of states (`Nfa.legible_determinize`).
* `Nfa.eq_of_tableRows_eq`: of the automata with the same states and the same alphabet, the table
  belongs to one only, since sets of targets are told apart by how they are shown.
-/

namespace FiniteAutomata

/-! ## The first cell of a row -/

namespace TransitionTable

variable {i i' a a' : Bool} {name : String}

theorem marks_inj : marks i a = marks i' a' ↔ i = i' ∧ a = a' := by
  revert i i' a a'
  decide +kernel

/-- The marks end where a text begins that does not begin with a mark. -/
theorem marks_append_inj {c c' : Char} {cs cs' : List Char} (hc : c ≠ '→' ∧ c ≠ '*')
    (hc' : c' ≠ '→' ∧ c' ≠ '*')
    (h : (marks i a).toList ++ c :: cs = (marks i' a').toList ++ c' :: cs') :
    (i = i' ∧ a = a') ∧ c :: cs = c' :: cs' := by
  have hmarks : ∀ i a : Bool, ∀ x ∈ (marks i a).toList, ¬ (x ≠ '→' ∧ x ≠ '*') := by
    intro i a
    cases i <;> cases a <;> simp [marks]
  obtain ⟨hmarks, rfl, rfl⟩ :=
    Text.append_stop_inj (p := fun x => x ≠ '→' ∧ x ≠ '*') (hmarks i a) (hmarks i' a') hc hc' h
  exact ⟨marks_inj.1 (String.toList_inj.1 hmarks), rfl⟩

variable {H : Highlight}

theorem apply_inj {s t : String} : H.apply s = H.apply t ↔ s = t := by
  rw [Highlight.apply, Highlight.apply, String.append_left_inj, String.append_right_inj]

/-- An accepting state has a mark, and what is written around it does not make the text shorter. -/
theorem apply_marks_ne : H.apply (marks i true ++ name) ≠ marks i' false ++ name := by
  intro h
  have hmarks : 1 ≤ (marks i true).length := by cases i <;> decide +kernel
  have hmarks' : (marks i' false).length ≤ 1 := by cases i' <;> decide +kernel
  have hlength := congrArg String.length h
  simp only [Highlight.apply, String.length_append] at hlength
  -- so there is nothing around it, and the marks are as long but not the same
  have hopening : H.opening = "" := String.length_eq_zero_iff.1 (by omega)
  have hclosing : H.closing = "" := String.length_eq_zero_iff.1 (by omega)
  rw [Highlight.apply, hopening, hclosing, String.empty_append, String.append_empty,
    String.append_left_inj, marks_inj] at h
  exact Bool.noConfusion h.2

theorem decorate_inj {highlighted : Bool}
    (h : decorate H highlighted i a name = decorate H highlighted i' a' name) :
    i = i' ∧ a = a' := by
  have hplain : marks i a ++ name = marks i' a' ++ name → i = i' ∧ a = a' := fun h =>
    marks_inj.1 ((String.append_left_inj name).1 h)
  cases highlighted with
  | false => exact hplain h
  | true =>
    cases a with
    | true =>
      cases a' with
      | true => exact hplain (apply_inj.1 h)
      | false => exact absurd h apply_marks_ne
    | false =>
      cases a' with
      | true => exact absurd h.symm apply_marks_ne
      | false => exact hplain h

end TransitionTable

open TransitionTable

/-! ## Deterministic automata -/

namespace Dfa

variable {D D' : Dfa} {i j : DfaStateId} {s t : DfaState} {a : Symbol} {n k : Nat}
  {row : List String} {cell text : String} {H : Highlight}

/-- Sets are shown in braces, and the sink by a word. -/
theorem exists_head_textOf (D : Dfa) (s : DfaState) :
    ∃ c cs, (D.textOf s).toList = c :: cs ∧ c ≠ '→' ∧ c ≠ '*' := by
  cases s with
  | subset S =>
    refine ⟨'\x7b', (Text.enumerate (S.toList.map D.memberNames.text) ++ "\x7d").toList, ?_,
      by decide⟩
    rw [textOf, Text.braced, String.append_assoc, String.toList_append]
    rfl
  | sink => exact ⟨'T', ['r', 'a', 'p'], (by decide +kernel : sinkName.toList = _), by decide⟩

theorem textOf_subset_ne (D : Dfa) (S : StateSet) : D.textOf (.subset S) ≠ sinkName := by
  intro h
  simpa [textOf, Text.braced, sinkName] using congrArg (·.toList.head?) h

/-- The state is the sink or a set of states that have names, and not the empty one. -/
def Shows (D : Dfa) : DfaState → Prop
  | .subset S => S.toList ≠ [] ∧ ∀ q ∈ S, D.memberNames.Has q
  | .sink => True

theorem textOf_inj (hcomma : D.memberNames.CommaFree) (hs : D.Shows s) (ht : D.Shows t)
    (h : D.textOf s = D.textOf t) : s = t := by
  cases s with
  | subset S =>
    cases t with
    | subset T => exact congrArg _ (NameTable.eq_of_braced_text_eq hcomma hs.2 ht.2 hs.1 ht.1 h)
    | sink => exact absurd h (D.textOf_subset_ne S)
  | sink =>
    cases t with
    | subset T => exact absurd h.symm (D.textOf_subset_ne T)
    | sink => rfl

/-! ### Rows -/

theorem lt_of_getElem?_tableRows {highlighted : Bool}
    (h : (D.tableRows H highlighted)[n]? = some row) :
    n < D.size ∧ row = D.tableRow H highlighted (.ofNat n) := by
  simp only [tableRows, stateIds, List.getElem?_map, Option.map_eq_some_iff] at h
  obtain ⟨_, ⟨m, hm, rfl⟩, rfl⟩ := h
  obtain ⟨hn, rfl⟩ := List.getElem?_eq_some_iff.1 hm
  rw [List.length_range] at hn
  exact ⟨hn, by rw [List.getElem_range]⟩

theorem lt_of_getElem?_tableRow_succ {highlighted : Bool}
    (h : (D.tableRow H highlighted i)[k + 1]? = some cell) :
    k < D.alphabet.size ∧ cell = D.tableCell i (.ofNat k) := by
  rw [tableRow, List.getElem?_cons_succ, List.getElem?_map, Option.map_eq_some_iff] at h
  obtain ⟨a, ha, rfl⟩ := h
  have hk : k < D.alphabet.size := by
    have hlt := (List.getElem?_eq_some_iff.1 ha).1
    rwa [NameTable.length_ids] at hlt
  rw [NameTable.getElem?_ids hk] at ha
  exact ⟨hk, by rw [Option.some.inj ha]⟩

/-- A row says how its state is shown, whether it accepts, and how its successors are shown. -/
theorem eq_of_tableRow_eq (halphabet : D.alphabet = D'.alphabet) (hi : i.toNat < D.size)
    (hi' : i.toNat < D'.size) (hrow : D.tableRow H false i = D'.tableRow H false i) :
    D.stateText i = D'.stateText i ∧ D.acceptsAt i = D'.acceptsAt i ∧
      ∀ a, D.alphabet.Has a → D.tableCell i a = D'.tableCell i a := by
  obtain ⟨hfirst, hcells⟩ := List.cons.inj hrow
  obtain ⟨s, hs⟩ := exists_state hi
  obtain ⟨s', hs'⟩ := exists_state hi'
  obtain ⟨c, cs, hhead, hc⟩ := D.exists_head_textOf s
  obtain ⟨c', cs', hhead', hc'⟩ := D'.exists_head_textOf s'
  rw [stateText_of_state hs, stateText_of_state hs'] at hfirst ⊢
  have hchars := congrArg String.toList hfirst
  simp only [decorate, Bool.false_and, Bool.false_eq_true, if_false, String.toList_append, hhead,
    hhead'] at hchars
  obtain ⟨⟨-, haccepts⟩, htext⟩ := marks_append_inj hc hc' hchars
  refine ⟨String.toList_inj.1 (by rw [hhead, hhead', htext]), haccepts, fun a ha => ?_⟩
  rw [← halphabet] at hcells
  exact List.map_inj_left.1 hcells a (NameTable.mem_ids.2 ha)

namespace Complete

variable (h : D.Complete)
include h

theorem mem_stateIds : i ∈ D.stateIds ↔ i.toNat < D.size := Index.mem_first h.size_le

theorem exists_successor_tableCell (hi : i.toNat < D.size) (ha : D.alphabet.Has a) :
    ∃ j, D.successor i a = .ok j ∧ j.toNat < D.size ∧ D.tableCell i a = D.stateText j := by
  obtain ⟨j, hj, hlt⟩ := h.exists_successor hi ha
  exact ⟨j, hj, hlt, by rw [tableCell, hj]⟩

end Complete

/-! ### Legible automata -/

/-- The tables fit together, and the states are shown differently. -/
structure Legible (D : Dfa) : Prop where
  complete : D.Complete
  stateText_inj : ∀ i j, i.toNat < D.size → j.toNat < D.size → D.stateText i = D.stateText j →
    i = j
  sink_iff : ∀ i, D.sink? = some i ↔ i.toNat < D.size ∧ D.stateText i = sinkName

/-- Labels tell the states apart, and cells of the table the successors. -/
structure LabelsIdentify (D : Dfa) : Prop where
  labelled : ∀ i : DfaStateId, i.toNat < D.size → ∃ text, D.stateLabel i = .ok text
  stateLabel_inj : ∀ i j text, D.stateLabel i = .ok text → D.stateLabel j = .ok text → i = j
  sink_iff : ∀ i, D.stateLabel i = .ok sinkName ↔ D.sink? = some i
  cell_iff : ∀ (H : Highlight) (n k : Nat) row cell, (D.tableRows H false)[n]? = some row →
    row[k + 1]? = some cell → ∃ j, D.successor (.ofNat n) (.ofNat k) = .ok j ∧
      ∀ i, D.stateLabel i = .ok cell ↔ i = j

namespace Legible

variable (h : D.Legible)
include h

theorem labelsIdentify : D.LabelsIdentify where
  labelled i hi := ⟨_, h.complete.stateLabel_eq hi⟩
  stateLabel_inj i j text hi hj := by
    rw [h.complete.stateLabel_eq_ok_iff] at hi hj
    exact h.stateText_inj i j hi.1 hj.1 (hi.2.trans hj.2.symm)
  sink_iff i := h.complete.stateLabel_eq_ok_iff.trans (h.sink_iff i).symm
  cell_iff H n k row cell hrow hcell := by
    obtain ⟨hn, rfl⟩ := lt_of_getElem?_tableRows hrow
    obtain ⟨hk, rfl⟩ := lt_of_getElem?_tableRow_succ hcell
    have hi : (Index.ofNat n : DfaStateId).toNat < D.size := by
      rwa [Index.toNat_ofNat_of_lt (Nat.lt_of_lt_of_le hn h.complete.size_le)]
    have ha : D.alphabet.Has (.ofNat k) := by
      rwa [NameTable.Has, NameTable.toNat_ofNat_of_lt_size hk]
    obtain ⟨j, hj, hlt, hcell⟩ := h.complete.exists_successor_tableCell hi ha
    refine ⟨j, hj, fun i => ?_⟩
    rw [h.complete.stateLabel_eq_ok_iff, hcell]
    constructor
    · rintro ⟨hi, htext⟩
      exact h.stateText_inj i j hi hlt htext
    · rintro rfl
      exact ⟨hlt, rfl⟩

/-- **The table determines the automaton**, up to which sets its states stand for. -/
theorem sameTables (h' : D'.Legible) (hcolumns : D.tableColumns = D'.tableColumns)
    (hrows : D.tableRows H false = D'.tableRows H false) : D.SameTables D' := by
  have halphabet : D.alphabet = D'.alphabet := NameTable.ext_names hcolumns
  have hsize : D.size = D'.size := by
    simpa [tableRows, stateIds] using congrArg List.length hrows
  have hrow : ∀ i : DfaStateId, i.toNat < D.size → D.stateText i = D'.stateText i ∧
      D.acceptsAt i = D'.acceptsAt i ∧
        ∀ a, D.alphabet.Has a → D.tableCell i a = D'.tableCell i a := by
    intro i hi
    have hids : D'.stateIds = D.stateIds := by rw [stateIds, stateIds, hsize]
    rw [tableRows, tableRows, hids, List.map_inj_left] at hrows
    exact eq_of_tableRow_eq halphabet hi (hsize ▸ hi) (hrows i (h.complete.mem_stateIds.2 hi))
  refine ⟨hsize, fun i a => ?_, fun i => ?_, Option.ext fun i => ?_⟩
  · refine h.complete.successor_congr h'.complete hsize (by rw [halphabet]) fun hi ha => ?_
    obtain ⟨j, hj, hlt, hcell⟩ := h.complete.exists_successor_tableCell hi ha
    obtain ⟨j', hj', hlt', hcell'⟩ :=
      h'.complete.exists_successor_tableCell (hsize ▸ hi) (halphabet ▸ ha)
    rw [← hsize] at hlt'
    -- both automata show `j'` the same, so the cell names `j` and `j'` in `D`
    have htext : D.stateText j = D.stateText j' :=
      calc D.stateText j = D.tableCell i a := hcell.symm
        _ = D'.tableCell i a := (hrow i hi).2.2 a ha
        _ = D'.stateText j' := hcell'
        _ = D.stateText j' := (hrow j' hlt').1.symm
    rw [hj, hj', h.stateText_inj j j' hlt hlt' htext]
  · exact h.complete.isAccepting_congr h'.complete hsize fun hi => (hrow i hi).2.1
  · rw [h.sink_iff, h'.sink_iff, ← hsize]
    exact and_congr_right fun hi => by rw [(hrow i hi).1]

end Legible

end Dfa

namespace Nfa

variable {N : Nfa} {i : DfaStateId} {s : DfaState}

theorem shows_of_state (h : N.determinize.state i = .ok s) : N.determinize.Shows s := by
  obtain ⟨u, -, hu⟩ := exists_word_of_lt (Dfa.lt_size_of_state h)
  obtain rfl : N.stateAfter u = s := Except.ok.inj (hu.symm.trans h)
  cases hs : N.stateAfter u with
  | sink => trivial
  | subset S =>
    obtain ⟨rfl, q, hq⟩ := Construction.stateFor_eq_subset_iff.1 hs
    exact ⟨List.ne_nil_of_mem hq, fun _ => has_of_mem_reachable⟩

theorem legible_determinize (hcomma : N.states.CommaFree)
    (hcap : N.determinize.size ≤ Index.capacity) : N.determinize.Legible where
  complete := complete_determinize hcap
  stateText_inj i j hi hj h := by
    obtain ⟨s, hs⟩ := Dfa.exists_state hi
    obtain ⟨t, ht⟩ := Dfa.exists_state hj
    rw [Dfa.stateText_of_state hs, Dfa.stateText_of_state ht] at h
    obtain rfl := Dfa.textOf_inj hcomma (shows_of_state hs) (shows_of_state ht) h
    exact eq_of_state_eq hcap hs ht
  sink_iff i := by
    rw [sink?_determinize hcap]
    constructor
    · exact fun h => ⟨Dfa.lt_size_of_state h, Dfa.stateText_of_state h⟩
    · rintro ⟨hi, htext⟩
      obtain ⟨s, hs⟩ := Dfa.exists_state hi
      rw [Dfa.stateText_of_state hs] at htext
      rw [hs, Dfa.textOf_inj (t := .sink) hcomma (shows_of_state hs) trivial htext]

/-! ## Nondeterministic automata -/

variable {N' : Nfa} {q : StateId} {l : Label} {S : StateSet} {H : Highlight}

theorem mem_columnLabels : l ∈ N.columnLabels ↔ N.alphabet.HasLabel l := by
  cases l with
  | epsilon => simp [columnLabels, Alphabet.HasLabel]
  | symbol a => simp [columnLabels, Alphabet.HasLabel]

theorem targets_of_eq_some (h : N.targets? q l = some S) :
    S.toList ≠ [] ∧ ∀ p ∈ S, N.states.Has p := by
  have hne := N.relation.isEmpty_eq_false (q, l) S h
  refine ⟨fun hnil => ?_, fun p hp => ?_⟩
  · rw [StateSet.isEmpty, hnil] at hne
    cases hne
  · exact (N.transition_within ⟨q, l, p⟩ (Relation.holds_iff_targets?.2 ⟨S, h, hp⟩)).target_has

theorem setText_ne (N : Nfa) (S : StateSet) : N.setText S ≠ "-" := by
  intro h
  simpa [setText, Text.braced] using congrArg (·.toList.head?) h

theorem targets?_eq_of_tableCell_eq (hcomma : N.states.CommaFree) (hstates : N.states = N'.states)
    (h : N.tableCell q l = N'.tableCell q l) : N.targets? q l = N'.targets? q l := by
  cases hS : N.targets? q l with
  | none =>
    cases hT : N'.targets? q l with
    | none => rfl
    | some T =>
      rw [tableCell_of_targets?_eq_none hS, tableCell_of_targets? hT] at h
      exact absurd h.symm (N'.setText_ne T)
  | some S =>
    cases hT : N'.targets? q l with
    | none =>
      rw [tableCell_of_targets? hS, tableCell_of_targets?_eq_none hT] at h
      exact absurd h (N.setText_ne S)
    | some T =>
      rw [tableCell_of_targets? hS, tableCell_of_targets? hT, setText, setText, ← hstates] at h
      obtain ⟨hne, hhas⟩ := targets_of_eq_some hS
      obtain ⟨hne', hhas'⟩ := targets_of_eq_some hT
      rw [← hstates] at hhas'
      rw [NameTable.eq_of_braced_text_eq hcomma hhas hhas' hne hne' h]

/-- A row says whether its state is initial, whether it accepts, and its targets. -/
theorem eq_of_tableRow_eq (hcomma : N.states.CommaFree) (hstates : N.states = N'.states)
    (halphabet : N.alphabet = N'.alphabet) {highlighted : Bool}
    (hrow : N.tableRow H highlighted q = N'.tableRow H highlighted q) :
    ((q == N.start) = (q == N'.start) ∧ N.isAccepting q = N'.isAccepting q) ∧
      ∀ l, N.alphabet.HasLabel l → N.targets? q l = N'.targets? q l := by
  obtain ⟨hfirst, hcells⟩ := List.cons.inj hrow
  rw [← hstates] at hfirst
  have hlabels : N'.columnLabels = N.columnLabels := by
    rw [columnLabels, columnLabels, halphabet]
  rw [hlabels, List.map_inj_left] at hcells
  exact ⟨decorate_inj hfirst, fun l hl =>
    targets?_eq_of_tableCell_eq hcomma hstates (hcells l (mem_columnLabels.2 hl))⟩

theorem relation_eq_of_targets? (hhas : ∀ q, N.states.Has q ↔ N'.states.Has q)
    (halphabet : N.alphabet = N'.alphabet)
    (h : ∀ q l, N.states.Has q → N.alphabet.HasLabel l → N.targets? q l = N'.targets? q l) :
    N.relation = N'.relation := by
  have hholds : ∀ t : Transition, N.states.Has t.source → N.alphabet.HasLabel t.label →
      (N.relation.Holds t ↔ N'.relation.Holds t) := fun t hq hl => by
    have htargets : N.relation.targets? t.source t.label = N'.relation.targets? t.source t.label :=
      h t.source t.label hq hl
    rw [Relation.holds_iff_targets?, Relation.holds_iff_targets?, htargets]
  refine Relation.ext_holds fun t => ⟨fun ht => ?_, fun ht => ?_⟩
  · have hwithin := N.transition_within t ht
    exact (hholds t hwithin.source_has hwithin.label_has).1 ht
  · have hwithin := N'.transition_within t ht
    exact (hholds t ((hhas _).2 hwithin.source_has) (halphabet ▸ hwithin.label_has)).2 ht

/-- **The table determines the automaton** among those with the same states and symbols. -/
theorem eq_of_tableRows_eq (hcomma : N.states.CommaFree) (hstates : N.states = N'.states)
    (halphabet : N.alphabet = N'.alphabet) {highlighted : Bool}
    (hrows : N.tableRows H highlighted = N'.tableRows H highlighted) : N = N' := by
  have hids : N'.stateIds = N.stateIds := by rw [stateIds, stateIds, hstates]
  rw [tableRows, tableRows, hids, List.map_inj_left] at hrows
  have hrow := fun q hq =>
    eq_of_tableRow_eq hcomma hstates halphabet (hrows q (NameTable.mem_ids.2 hq))
  have hhas : ∀ q, N.states.Has q ↔ N'.states.Has q := fun q => by rw [hstates]
  have hstart : N.start = N'.start := by simpa using (hrow N.start N.start_has).1.1
  exact ext_parts hstates halphabet
    (relation_eq_of_targets? hhas halphabet fun q l hq => (hrow q hq).2 l) hstart
    (accepting_eq_of_isAccepting hhas fun q hq => (hrow q hq).1.2)

/-! ## Automata that are read -/

/-- **The tables of deterministic automata are faithful**: labels tell the states apart, and columns
and rows settle how many states there are, which of them accept and what their successors are. -/
theorem determinize_table_faithful :
    (∀ bytes N, ofBytes bytes = .ok N → N.determinize.size ≤ Index.capacity →
      N.determinize.LabelsIdentify) ∧
    ∀ (H : Highlight) bytes bytes' N N', ofBytes bytes = .ok N → ofBytes bytes' = .ok N' →
      N.determinize.size ≤ Index.capacity → N'.determinize.size ≤ Index.capacity →
      N.determinize.tableColumns = N'.determinize.tableColumns →
      N.determinize.tableRows H false = N'.determinize.tableRows H false →
        N.determinize.SameTables N'.determinize := by
  refine ⟨fun _ _ h hcap => (legible_determinize (commaFree_of_ofBytes h) hcap).labelsIdentify, ?_⟩
  intro _ _ _ _ _ h h' hcap hcap' hcolumns hrows
  exact (legible_determinize (commaFree_of_ofBytes h) hcap).sameTables
    (legible_determinize (commaFree_of_ofBytes h') hcap') hcolumns hrows

/-- Names that look like parts of a table. -/
def lookalikes : NameTable .state := ⟨["-", "Trap*", "*"], by decide, by decide⟩

/-- The mark of an initial state as the only symbol. -/
def arrows : Alphabet := ⟨["→"], by decide, by decide⟩

/-- Leads from `-` to `Trap*` on nothing. -/
def silentMove : { t : Transition // t.Within lookalikes arrows } :=
  ⟨⟨.ofNat 0, .epsilon, .ofNat 1⟩, by decide, trivial, by decide⟩

/-- Leads from `Trap*` to `*` on the symbol. -/
def lastMove : { t : Transition // t.Within lookalikes arrows } :=
  ⟨⟨.ofNat 1, .symbol (.ofNat 0), .ofNat 2⟩, by decide, Nat.zero_lt_one, by decide⟩

/-- What the other moves imply. -/
def directMove : { t : Transition // t.Within lookalikes arrows } :=
  ⟨⟨.ofNat 0, .symbol (.ofNat 0), .ofNat 2⟩, by decide, Nat.zero_lt_one, by decide⟩

/-- Leads from `-` to `*` by the given moves. -/
def lookalike (moves : List { t : Transition // t.Within lookalikes arrows }) : Nfa :=
  Definition.assemble lookalikes arrows moves ⟨.ofNat 0, by decide⟩ [⟨.ofNat 2, by decide⟩]

/-- A text for such an automaton. -/
def lookalikeText (moves : List String) : List UInt8 :=
  Text.encode ("\n".intercalate (["-, Trap*, *", "→"] ++ moves ++ ["done", "-", "*"]))

theorem ofBytes_lookalikeText : ofBytes (lookalikeText ["-,ε,Trap*", "Trap*,→,*"]) =
    .ok (lookalike [silentMove, lastMove]) := by
  decide +kernel

/-- Different automata may be determinized to the same table. -/
theorem determinize_table_faithful_lookalike : ∃ N N' : Nfa,
    ofBytes (lookalikeText ["-,ε,Trap*", "Trap*,→,*"]) = .ok N ∧
    ofBytes (lookalikeText ["-,→,*", "-,ε,Trap*", "Trap*,→,*"]) = .ok N' ∧ N ≠ N' ∧
    N.determinize.size ≤ Index.capacity ∧ N'.determinize.size ≤ Index.capacity ∧
    N.determinize.tableRows .boldGreen false =
      [["→\x7b-, Trap*\x7d", "\x7b*\x7d"], ["*\x7b*\x7d", "Trap"], ["Trap", "Trap"]] ∧
    N.determinize.LabelsIdentify ∧ N.determinize.SameTables N'.determinize := by
  have hread' : ofBytes (lookalikeText ["-,→,*", "-,ε,Trap*", "Trap*,→,*"]) =
      .ok (lookalike [directMove, silentMove, lastMove]) := by decide +kernel
  have hcap : (lookalike [silentMove, lastMove]).determinize.size ≤ Index.capacity :=
    size_determinize_le_capacity (by decide)
  have hcap' : (lookalike [directMove, silentMove, lastMove]).determinize.size ≤ Index.capacity :=
    size_determinize_le_capacity (by decide)
  have hcolumns : (lookalike [silentMove, lastMove]).determinize.tableColumns =
      (lookalike [directMove, silentMove, lastMove]).determinize.tableColumns := by
    decide +kernel
  have hrows : (lookalike [silentMove, lastMove]).determinize.tableRows .boldGreen false =
      (lookalike [directMove, silentMove, lastMove]).determinize.tableRows .boldGreen false := by
    decide +kernel
  obtain ⟨hlabels, hsame⟩ := determinize_table_faithful
  exact ⟨_, _, ofBytes_lookalikeText, hread', by decide +kernel, hcap, hcap', by decide +kernel,
    hlabels _ _ ofBytes_lookalikeText hcap,
    hsame _ _ _ _ _ ofBytes_lookalikeText hread' hcap hcap' hcolumns hrows⟩

/-- **The tables of nondeterministic automata are faithful**: an automaton that is read has other
rows than every other automaton with the same states and the same alphabet, highlighted or not,
whatever is written around highlighted names. -/
theorem table_faithful (H : Highlight) (bytes : List UInt8) (N N' : Nfa)
    (h : ofBytes bytes = .ok N) (hstates : N.states = N'.states)
    (halphabet : N.alphabet = N'.alphabet) (highlighted : Bool)
    (hrows : N.tableRows H highlighted = N'.tableRows H highlighted) : N = N' :=
  eq_of_tableRows_eq (commaFree_of_ofBytes h) hstates halphabet hrows

/-- Two texts of one automaton, the second with its moves in another order and one of them twice. -/
theorem table_faithful_lookalike : ∃ N N' : Nfa,
    ofBytes (lookalikeText ["-,ε,Trap*", "Trap*,→,*"]) = .ok N ∧
    ofBytes (lookalikeText ["Trap*,→,*", "-,ε,Trap*", "Trap*,→,*"]) = .ok N' ∧
    N.tableRows .boldGreen false =
      [["→-", "-", "\x7bTrap*\x7d"], ["Trap*", "\x7b*\x7d", "-"], ["**", "-", "-"]] ∧
    N.tableRows .boldGreen true = N'.tableRows .boldGreen true ∧ N = N' := by
  have hread' : ofBytes (lookalikeText ["Trap*,→,*", "-,ε,Trap*", "Trap*,→,*"]) =
      .ok (lookalike [lastMove, silentMove]) := by decide +kernel
  have hrows : (lookalike [silentMove, lastMove]).tableRows .boldGreen true =
      (lookalike [lastMove, silentMove]).tableRows .boldGreen true := by decide +kernel
  exact ⟨_, _, ofBytes_lookalikeText, hread', by decide +kernel, hrows,
    table_faithful _ _ _ _ ofBytes_lookalikeText rfl rfl true hrows⟩

end Nfa

end FiniteAutomata
