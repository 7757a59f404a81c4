import FiniteAutomata.Proofs.DeclaredParts
import FiniteAutomata.Proofs.ExactContents

/-!
# An automaton declared by its own names

`N.describe` declares an automaton anew from what it answers about itself: the names of its states
and symbols in the order of their ids, its transitions, its start state and its accepting states.
The queries do not fail, since every id in `N` is one of its own, and the names are those of the
parts of `N` (`describe_eq`). So the declaration builds an automaton with these parts, and there is
no other than `N` (`HasParts.unique`).

The list of transitions is ordered by source, label and target (`Relation.pairwise_transitions`), so
no transition is declared twice. It is what sorting gives, in whatever order the targets of states
and labels are gone through (`Relation.mergeSort_eq_transitions`).
-/

namespace FiniteAutomata

/-- Sorting by a key gives the one order in which all keys ascend. -/
theorem mergeSort_eq_of_perm {α κ : Type} {cmp : κ → κ → Ordering} [Std.TransCmp cmp]
    {key : α → κ} {xs ys : List α} (h : xs.Perm ys)
    (hys : ys.Pairwise fun x y => cmp (key x) (key y) = .lt) :
    xs.mergeSort (fun x y => (cmp (key x) (key y)).isLE) = ys := by
  have htotal : ∀ x y, (cmp (key x) (key y)).isLE || (cmp (key y) (key x)).isLE := fun x y => by
    rw [← Std.OrientedCmp.isGE_eq_isLE]
    cases cmp (key y) (key x) <;> rfl
  have hsorted := List.pairwise_mergeSort (fun _ _ _ => Std.TransCmp.isLE_trans) htotal xs
  refine List.Perm.eq_of_pairwise (fun x y hx hy hxy hyx => ?_) hsorted
    (hys.imp Ordering.isLE_of_eq_lt) ((List.mergeSort_perm _ _).trans h)
  -- of different entries, one is strictly before the other
  have hne : ys.Pairwise fun x y => cmp (key x) (key y) ≠ .eq :=
    hys.imp fun hlt heq => nomatch hlt.symm.trans heq
  have hsymm : Std.Symm fun x y => cmp (key x) (key y) ≠ .eq :=
    ⟨fun _ _ hxy hyx => hxy (Std.OrientedCmp.eq_comm.1 hyx)⟩
  by_contra hxy'
  exact hne.forall (h.mem_iff.1 (List.mem_mergeSort.1 hx)) hy hxy'
    (Std.OrientedCmp.isLE_antisymm hxy hyx)

/-! ## The order of transitions -/

/-- Earlier in the order of labels, which has epsilon first. -/
def Label.Before : Label → Label → Prop
  | .epsilon, .symbol _ => True
  | .symbol a, .symbol b => a < b
  | _, .epsilon => False

/-- Earlier in the order by source, then by label, then by target. -/
def Transition.Before (t u : Transition) : Prop :=
  t.source < u.source ∨ t.source = u.source ∧
    (t.label.Before u.label ∨ t.label = u.label ∧ t.target < u.target)

theorem Label.before_iff {l m : Label} : l.Before m ↔ compare l m = .lt := by
  rw [Label.compare_eq_lt]
  cases l with
  | epsilon =>
    cases m with
    | epsilon => exact iff_of_false id (Nat.lt_irrefl 0)
    | symbol b => exact iff_of_true trivial (Nat.succ_pos _)
  | symbol a =>
    cases m with
    | epsilon => exact iff_of_false id (Nat.not_lt_zero _)
    | symbol b => exact Nat.succ_lt_succ_iff.symm

instance : Ord Transition :=
  ⟨compareLex (compareOn Transition.source)
    (compareLex (compareOn Transition.label) (compareOn Transition.target))⟩

instance : Std.TransOrd Transition :=
  inferInstanceAs (Std.TransCmp (compareLex (compareOn Transition.source)
    (compareLex (compareOn Transition.label) (compareOn Transition.target))))

theorem Transition.before_iff {t u : Transition} : t.Before u ↔ compare t u = .lt := by
  change _ ↔ compareLex (compareOn Transition.source)
    (compareLex (compareOn Transition.label) (compareOn Transition.target)) t u = .lt
  simp only [Before, compareLex, compareOn, Ordering.then_eq_lt, Label.before_iff,
    Std.LawfulEqOrd.compare_eq_iff_eq, ← Index.compare_eq_lt]

theorem Relation.pairwise_transitions (R : Relation) :
    R.transitions.Pairwise Transition.Before := by
  refine List.pairwise_flatMap.2 ⟨fun e _ => ?_, ?_⟩
  · refine List.pairwise_map.2 (e.2.ascending.imp fun {_ _} hlt => ?_)
    exact .inr ⟨rfl, .inr ⟨rfl, hlt⟩⟩
  · refine Std.ExtTreeMap.ordered_keys_toList.imp fun {e f} hlt t ht u hu => ?_
    obtain ⟨p, -, rfl⟩ := List.mem_map.1 ht
    obtain ⟨p', -, rfl⟩ := List.mem_map.1 hu
    rcases comparePair_eq_lt.1 hlt with hsource | ⟨hsource, hlabel⟩
    · exact .inl (Index.compare_eq_lt.1 hsource)
    · exact .inr ⟨hsource, .inl (Label.before_iff.2 hlabel)⟩

/-- The transitions of the entries in any order, once they are sorted. -/
theorem Relation.mergeSort_eq_transitions (R : Relation)
    {entries : List ((StateId × Label) × StateSet)} (h : entries.Perm R.entries.toList) :
    (entries.flatMap fun e => e.2.toList.map fun p => (⟨e.1.1, e.1.2, p⟩ : Transition)).mergeSort
      (fun t u => (compare t u).isLE) = R.transitions :=
  mergeSort_eq_of_perm (h.flatMap_right _)
    (R.pairwise_transitions.imp fun {_ _} hbefore => Transition.before_iff.1 hbefore)

/-! ## Names of own ids -/

theorem mapM_eq_ok_map {ε α β : Type} {f : α → Except ε β} {g : α → β} {xs : List α}
    (h : ∀ x ∈ xs, f x = .ok (g x)) : xs.mapM f = .ok (xs.map g) := by
  rw [mapM_eq_ok_iff, List.forall₂_map_right_iff, List.forall₂_same]
  exact h

theorem NameTable.map_text_ids {s : Space} (t : NameTable s) : t.ids.map t.text = t.names := by
  refine List.ext_getElem? fun n => ?_
  rw [List.getElem?_map]
  by_cases hn : n < t.size
  · rw [getElem?_ids hn, Option.map_some, text, name?, toNat_ofNat_of_lt_size hn,
      List.getElem?_eq_getElem hn, Option.getD_some]
  · have hnone : t.ids[n]? = none :=
      List.getElem?_eq_none (by rw [length_ids]; exact Nat.not_lt.1 hn)
    rw [hnone, List.getElem?_eq_none (Nat.not_lt.1 hn), Option.map_none]

theorem Alphabet.name_eq {A : Alphabet} {a : Symbol} (h : A.Has a) : A.name a = .ok (A.text a) :=
  name_eq_ok_iff.2 (NameTable.find?_text h)

theorem Alphabet.labelName_eq {A : Alphabet} {l : Label} (h : A.HasLabel l) :
    A.labelName l = .ok (A.labelText l) := by
  cases l with
  | epsilon => rfl
  | symbol a => exact name_eq h

/-- Automata with the same parts are the same. -/
theorem Nfa.HasParts.unique {N M : Nfa} {P : Parts} (hN : N.HasParts P) (hM : M.HasParts P) :
    N = M := by
  have hrelation : N.relation = M.relation := Relation.ext_holds fun u =>
    (hN.mem_successors_iff u.source u.label u.target).trans
      (hM.mem_successors_iff u.source u.label u.target).symm
  have haccepting : N.accepting = M.accepting := StateSet.ext fun q =>
    (hN.mem_accepting_iff q).trans (hM.mem_accepting_iff q).symm
  exact ext_parts (hN.states_eq.trans hM.states_eq.symm)
    (hN.alphabet_eq.trans hM.alphabet_eq.symm) hrelation (hN.start_eq.trans hM.start_eq.symm)
    haccepting

/-! ## The declaration -/

namespace Nfa

variable {N : Nfa} {q : StateId} {t : Transition}

/-- A transition by the names that the automaton has for its parts. -/
def describeTransition (N : Nfa) (t : Transition) : Except AccessError NamedTransition := do
  return ⟨← N.name t.source, ← N.alphabet.labelName t.label, ← N.name t.target⟩

/-- The automaton declared anew by its own names, the ids in ascending order. -/
def describe (N : Nfa) : Except AccessError Definition := do
  let states ← N.stateIds.mapM N.name
  let symbols ← N.alphabet.ids.mapM N.alphabet.name
  let transitions ← N.transitions.mapM N.describeTransition
  let start ← N.name N.start
  let accepting ← N.accepting.toList.mapM N.name
  return ((((Definition.empty.addStates states).addSymbols symbols).addTransitions
    transitions).setStart start).addAccepting accepting

/-- The parts of the automaton, each transition and accepting state once. -/
def parts (N : Nfa) : Parts where
  states := N.states
  alphabet := N.alphabet
  transitions := N.transitions
  start := N.start
  accepting := N.accepting.toList

theorem hasParts_parts (N : Nfa) : N.HasParts N.parts where
  states_eq := rfl
  alphabet_eq := rfl
  start_eq := rfl
  mem_successors_iff q l p := (mem_transitions (t := ⟨q, l, p⟩)).symm
  mem_accepting_iff _ := StateSet.mem_toList.symm

/-- Every id in an automaton is one of its own. -/
theorem wellFormed_parts (h : ∀ name, name ∈ N.states.names ∨ name ∈ N.alphabet.names →
    isReserved name = false) : N.parts.WellFormed where
  not_reserved := h
  within u hu := N.transition_within u (mem_transitions.1 hu)
  start_has := N.start_has
  accepting_has := N.accepting_has

theorem name_eq (h : N.states.Has q) : N.name q = .ok (N.states.text q) :=
  name_eq_ok_iff.2 (NameTable.find?_text h)

theorem describeTransition_eq (h : t ∈ N.transitions) :
    N.describeTransition t = .ok (N.parts.nameTransition t) := by
  have hwithin := N.transition_within t (mem_transitions.1 h)
  rw [describeTransition, name_eq hwithin.source_has, Alphabet.labelName_eq hwithin.label_has,
    name_eq hwithin.target_has]
  rfl

/-- **An automaton describes its parts**: no query for a name fails. -/
theorem describe_eq (N : Nfa) : N.describe = .ok N.parts.toDefinition := by
  have hstates : N.stateIds.mapM N.name = .ok N.states.names := by
    have hmap : N.stateIds.mapM N.name = .ok (N.stateIds.map N.states.text) :=
      mapM_eq_ok_map fun q hq => name_eq (NameTable.mem_ids.1 hq)
    rw [hmap, stateIds, NameTable.map_text_ids]
  have hsymbols : N.alphabet.ids.mapM N.alphabet.name = .ok N.alphabet.names := by
    rw [mapM_eq_ok_map fun a ha => Alphabet.name_eq (NameTable.mem_ids.1 ha),
      NameTable.map_text_ids]
  have htransitions : N.transitions.mapM N.describeTransition =
      .ok (N.transitions.map N.parts.nameTransition) :=
    mapM_eq_ok_map fun _ ht => describeTransition_eq ht
  have haccepting : N.accepting.toList.mapM N.name =
      .ok (N.accepting.toList.map N.states.text) :=
    mapM_eq_ok_map fun q hq => name_eq (N.accepting_has q hq)
  rw [describe, hstates, hsymbols, htransitions, name_eq N.start_has, haccepting]
  rfl

/-- **An automaton is built again from its own description**, which lists each of its transitions
once, in order. -/
theorem build_describe (d : Definition) (N : Nfa) (h : d.build = .ok N) :
    N.transitions.Pairwise Transition.Before ∧
    (∀ q l p, ⟨q, l, p⟩ ∈ N.transitions ↔ ∃ S, N.targets? q l = some S ∧ p ∈ S) ∧
    ∃ e, N.describe = .ok e ∧ e.build = .ok N := by
  refine ⟨N.relation.pairwise_transitions,
    fun q l p => mem_transitions.trans Relation.holds_iff_targets?, _, N.describe_eq, ?_⟩
  have hd := Definition.describes_of_build h
  have hvalid := Definition.exists_build_iff.1 ⟨N, h⟩
  have hparts : N.parts.WellFormed := by
    refine wellFormed_parts fun name hname => hvalid.not_reserved name ?_
    rw [hd.states_eq, hd.alphabet_eq] at hname
    exact hname.imp NameTable.mem_of_mem_names_ofList NameTable.mem_of_mem_names_ofList
  obtain ⟨M, hM, hM'⟩ := hparts.exists_build
  rw [hM, hM'.unique N.hasParts_parts]

/-- Declared with repetitions and in another order, `readsA` describes itself without them. -/
theorem build_describe_readsA :
    (Definition.collect Definition.callsForReadsA).build = .ok readsA ∧
    (Definition.collect Definition.callsForReadsA) ≠ Definition.readsA ∧
    readsA.describe = .ok Definition.readsA ∧ Definition.readsA.build = .ok readsA := by
  have hbuild : (Definition.collect Definition.callsForReadsA).build = .ok readsA :=
    Definition.sameContents_callsForReadsA.build_eq ⟨by decide +kernel, by decide +kernel⟩
      Definition.build_readsA
  obtain ⟨-, -, e, he, hagain⟩ := build_describe _ readsA hbuild
  have hdescribe : readsA.describe = .ok Definition.readsA := rfl
  obtain rfl : e = Definition.readsA := Except.ok.inj (he.symm.trans hdescribe)
  exact ⟨hbuild, by decide, hdescribe, hagain⟩

end Nfa

end FiniteAutomata
