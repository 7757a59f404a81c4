import FiniteAutomata.Proofs.BuiltAutomata
import FiniteAutomata.Proofs.DisplayedIds

/-!
# Declaring an automaton by its parts

`Parts` are the tables of an automaton with its moves and special states by id, and
`Parts.toDefinition` declares them by name. If the parts fit together (`Parts.WellFormed`), the
declaration builds an automaton that has just these parts (`WellFormed.exists_build`).
-/

namespace FiniteAutomata

/-! ## From ids to names and back -/

namespace NameTable

variable {s : Space} {t : NameTable s} {i : Index s}

theorem find?_text (h : t.Has i) : t.find? (t.text i) = some i := by
  obtain ⟨name, hname⟩ := exists_name?_of_has h
  rw [text, hname, Option.getD_some, find?_eq_some_iff, hname]

theorem text_mem_names (h : t.Has i) : t.text i ∈ t.names := mem_names_of_find? (find?_text h)

end NameTable

theorem Alphabet.label?_labelText {A : Alphabet} (h : ∀ name ∈ A.names, isReserved name = false)
    {l : Label} (hl : A.HasLabel l) : A.label? (A.labelText l) = some l := by
  cases l with
  | epsilon => rfl
  | symbol a =>
    rw [labelText, label?_of_not_reserved (h _ (NameTable.text_mem_names hl)),
      NameTable.find?_text hl, Option.map_some]

/-- The parts of an automaton. -/
structure Parts where
  states : NameTable .state
  alphabet : Alphabet
  transitions : List Transition
  start : StateId
  accepting : List StateId

namespace Parts

/-- A transition by the names of its parts. -/
def nameTransition (P : Parts) (u : Transition) : NamedTransition :=
  ⟨P.states.text u.source, P.alphabet.labelText u.label, P.states.text u.target⟩

/-- The declaration of the parts by name. -/
def toDefinition (P : Parts) : Definition where
  states := P.states.names
  symbols := P.alphabet.names
  transitions := P.transitions.map P.nameTransition
  start? := some (P.states.text P.start)
  accepting := P.accepting.map P.states.text

/-- No name is reserved, and all ids are those of declared states and symbols. -/
structure WellFormed (P : Parts) : Prop where
  not_reserved : ∀ name, name ∈ P.states.names ∨ name ∈ P.alphabet.names →
    isReserved name = false
  within : ∀ u ∈ P.transitions, u.Within P.states P.alphabet
  start_has : P.states.Has P.start
  accepting_has : ∀ q ∈ P.accepting, P.states.Has q

end Parts

/-- The automaton has these parts and no further moves or accepting states. -/
structure Nfa.HasParts (N : Nfa) (P : Parts) : Prop where
  states_eq : N.states = P.states
  alphabet_eq : N.alphabet = P.alphabet
  start_eq : N.start = P.start
  mem_successors_iff : ∀ q l p, p ∈ N.successors q l ↔ ⟨q, l, p⟩ ∈ P.transitions
  mem_accepting_iff : ∀ q, q ∈ N.accepting ↔ q ∈ P.accepting

namespace Parts

variable {P : Parts} {N : Nfa}

theorem ofList_states (P : Parts) : .ofList P.toDefinition.states = P.states :=
  NameTable.ofList_names P.states

theorem ofList_symbols (P : Parts) : .ofList P.toDefinition.symbols = P.alphabet :=
  NameTable.ofList_names P.alphabet

theorem WellFormed.denotes (h : P.WellFormed) {u : Transition} (hu : u ∈ P.transitions) :
    (P.nameTransition u).Denotes P.states P.alphabet u where
  source := NameTable.find?_text (h.within u hu).source_has
  label := Alphabet.label?_labelText (fun name hname => h.not_reserved name (.inr hname))
    (h.within u hu).label_has
  target := NameTable.find?_text (h.within u hu).target_has

theorem WellFormed.valid (h : P.WellFormed) : P.toDefinition.Valid where
  states_ne_nil := List.ne_nil_of_mem (NameTable.text_mem_names h.start_has)
  not_reserved := h.not_reserved
  transitions t ht := by
    obtain ⟨u, hu, rfl⟩ := List.mem_map.1 ht
    rw [P.ofList_states, P.ofList_symbols]
    exact ⟨u, h.denotes hu⟩
  start := ⟨_, rfl, P.start, by rw [P.ofList_states]; exact NameTable.find?_text h.start_has⟩
  accepting name hname := by
    obtain ⟨q, hq, rfl⟩ := List.mem_map.1 hname
    rw [P.ofList_states]
    exact ⟨q, NameTable.find?_text (h.accepting_has q hq)⟩

theorem WellFormed.hasParts (h : P.WellFormed) (hN : P.toDefinition.build = .ok N) :
    N.HasParts P := by
  have hd := Definition.describes_of_build hN
  have hstates : N.states = P.states := hd.states_eq.trans P.ofList_states
  have halphabet : N.alphabet = P.alphabet := hd.alphabet_eq.trans P.ofList_symbols
  refine ⟨hstates, halphabet, ?_, fun q l p => ?_, fun q => ?_⟩
  · obtain ⟨name, hstart, hname⟩ := hd.start
    obtain rfl : P.states.text P.start = name := Option.some.inj hstart
    rw [hstates, NameTable.find?_text h.start_has] at hname
    exact (Option.some.inj hname).symm
  · refine (hd.holds_iff ⟨q, l, p⟩).trans ?_
    rw [hstates, halphabet]
    constructor
    · rintro ⟨t, ht, hdenotes⟩
      obtain ⟨u, hu, rfl⟩ := List.mem_map.1 ht
      exact hdenotes.unique (h.denotes hu) ▸ hu
    · exact fun hu => ⟨_, List.mem_map_of_mem hu, h.denotes hu⟩
  · rw [hd.mem_accepting, hstates]
    constructor
    · rintro ⟨name, hname, hq⟩
      obtain ⟨p, hp, rfl⟩ := List.mem_map.1 hname
      rw [NameTable.find?_text (h.accepting_has p hp)] at hq
      exact Option.some.inj hq ▸ hp
    · exact fun hq => ⟨_, List.mem_map_of_mem hq, NameTable.find?_text (h.accepting_has q hq)⟩

/-- **Declaring well-formed parts builds an automaton that has them.** -/
theorem WellFormed.exists_build (h : P.WellFormed) :
    ∃ N, P.toDefinition.build = .ok N ∧ N.HasParts P := by
  obtain ⟨N, hN⟩ := Definition.exists_build_iff.2 h.valid
  exact ⟨N, hN, h.hasParts hN⟩

end Parts

end FiniteAutomata
