import FiniteAutomata.Dot.Drawing
import FiniteAutomata.Proofs.DisplayedIds
import FiniteAutomata.Proofs.GraphText
import FiniteAutomata.Proofs.Totality

/-!
# Drawings are faithful

What is drawn of an automaton can be told from the written drawing, whatever characters its names
have: the states with their names and whether they accept, the start state and the edges. Both kinds
of automata are drawn as a `Picture`, and pictures with the same text are the same up to states
that they do not have (`Picture.same_of_render_eq`). The initial state is always red, so acceptance
shows in the shape of a node (`stateAttributes_inj`).
-/

namespace FiniteAutomata

open Dot

/-! ## Nodes and edges of states -/

theorem word_toString {s : Space} (i : Index s) : Word (toString i) := by
  have hletter : Word s.letter := by cases s <;> simp [Word, Space.letter]
  intro c hc
  rw [Index.toString_eq, String.toList_append, Nat.toList_repr] at hc
  rcases List.mem_append.1 hc with hc | hc
  · exact hletter c hc
  · rw [Char.isAlphanum, Nat.isDigit_of_mem_toDigits (by decide) (by decide) hc, Bool.or_true]

theorem plain_stateAttributes (label : String) (initial accepting : Bool) :
    ∀ a ∈ stateAttributes label initial accepting, a.Plain := by
  cases initial <;> cases accepting <;> simp [stateAttributes, Attribute.Plain]

theorem stateAttributes_inj {label label' : String} {initial initial' accepting accepting' : Bool}
    (h : stateAttributes label initial accepting = stateAttributes label' initial' accepting') :
    label = label' ∧ accepting = accepting' := by
  cases accepting <;> cases accepting' <;> simp_all [stateAttributes]

theorem StateEdge.draw_injective {s : Space} : Function.Injective (StateEdge.draw (s := s)) := by
  rintro ⟨q, l, p⟩ ⟨q', l', p'⟩ h
  simpa [draw, Index.toString_inj] using h

/-! ## What is drawn of an automaton -/

/-- What a drawing shows of an automaton. -/
structure Picture (s : Space) where
  name : String
  feed_not_mem : '\n' ∉ name.toList
  ids : List (Index s)
  text : Index s → String
  start : Index s
  accepts : Index s → Bool
  edges : List (StateEdge s)

namespace Picture

variable {s : Space} {P Q : Picture s}

/-- The node of a state. -/
def node (P : Picture s) (i : Index s) : Node :=
  ⟨toString i, stateAttributes (P.text i) (i == P.start) (P.accepts i)⟩

/-- The drawing. -/
def toGraph (P : Picture s) : Graph :=
  ⟨some P.name, P.ids.map P.node, toString P.start, P.edges.map StateEdge.draw⟩

theorem wellFormed_toGraph (P : Picture s) : P.toGraph.WellFormed where
  name := P.feed_not_mem
  nodes n hn := by
    obtain ⟨i, -, rfl⟩ := List.mem_map.1 hn
    exact ⟨word_toString i, plain_stateAttributes _ _ _⟩
  initial := word_toString P.start
  edges e he := by
    obtain ⟨e, -, rfl⟩ := List.mem_map.1 he
    exact ⟨word_toString e.source, word_toString e.target⟩

/-- The pictures show the same. -/
structure Same (P Q : Picture s) : Prop where
  ids : P.ids = Q.ids
  text : ∀ i ∈ P.ids, P.text i = Q.text i
  start : P.start = Q.start
  accepts : ∀ i ∈ P.ids, P.accepts i = Q.accepts i
  edges : P.edges = Q.edges

/-- **A picture is determined by the text of its drawing.** -/
theorem same_of_render_eq (h : P.toGraph.render = Q.toGraph.render) : P.Same Q := by
  obtain ⟨-, hnodes, hstart, hedges⟩ :=
    Graph.eq_of_render_eq P.wellFormed_toGraph Q.wellFormed_toGraph h
  have hids : P.ids = Q.ids := by
    have hidents := congrArg (List.map Node.ident) hnodes
    simp only [toGraph, List.map_map] at hidents
    exact List.map_injective_iff.2 (fun _ _ => Index.toString_inj.1) hidents
  have hattributes : ∀ i ∈ P.ids, P.text i = Q.text i ∧ P.accepts i = Q.accepts i := by
    intro i hi
    simp only [toGraph, ← hids, List.map_inj_left] at hnodes
    exact stateAttributes_inj (congrArg Node.attributes (hnodes i hi))
  exact ⟨hids, fun i hi => (hattributes i hi).1, Index.toString_inj.1 hstart,
    fun i hi => (hattributes i hi).2, List.map_injective_iff.2 StateEdge.draw_injective hedges⟩

end Picture

/-! ## Nondeterministic automata -/

theorem NameTable.name?_eq {s : Space} (t : NameTable s) (i : Index s) :
    t.name? i = if t.Has i then some (t.text i) else none := by
  split
  · rename_i hi
    obtain ⟨name, hname⟩ := exists_name?_of_has hi
    rw [text, hname, Option.getD_some]
  · rename_i hi
    exact List.getElem?_eq_none (Nat.not_lt.1 hi)

namespace Nfa

variable {N N' : Nfa}

/-- What is drawn of the automaton. -/
def picture (N : Nfa) : Picture .state where
  name := "NFA"
  feed_not_mem := by decide +kernel
  ids := N.stateIds
  text := N.states.text
  start := N.start
  accepts := N.isAccepting
  edges := N.dotEdges

theorem toGraph_eq (N : Nfa) : N.toGraph = N.picture.toGraph := rfl

/-- The automata have the same drawing. -/
structure SameDrawing (N N' : Nfa) : Prop where
  size : N.size = N'.size
  name : ∀ q, N.name q = N'.name q
  start : N.start = N'.start
  accepting : N.accepting = N'.accepting
  dotEdges : N.dotEdges = N'.dotEdges

theorem sameDrawing_of_render_eq (h : N.toGraph.render = N'.toGraph.render) :
    N.SameDrawing N' := by
  rw [toGraph_eq, toGraph_eq] at h
  have hsame := Picture.same_of_render_eq h
  have hids : N.states.ids = N'.states.ids := hsame.ids
  have hhas : ∀ q, N.states.Has q ↔ N'.states.Has q := fun q => by
    rw [← NameTable.mem_ids, hids, NameTable.mem_ids]
  have hmem : ∀ q, N.states.Has q → q ∈ N.picture.ids := fun q => NameTable.mem_ids.2
  refine ⟨?_, fun q => ?_, hsame.start,
    accepting_eq_of_isAccepting hhas fun q hq => hsame.accepts q (hmem q hq), hsame.edges⟩
  · rw [size, ← NameTable.length_ids, hids, NameTable.length_ids, size]
  · have hname : N.states.name? q = N'.states.name? q := by
      rw [NameTable.name?_eq, NameTable.name?_eq]
      by_cases hq : N.states.Has q
      · rw [if_pos hq, if_pos ((hhas q).1 hq)]
        exact congrArg some (hsame.text q (hmem q hq))
      · rw [if_neg hq, if_neg (mt (hhas q).2 hq)]
    rw [name, name, hname]

end Nfa

/-! ## Deterministic automata -/

namespace Dfa

variable {D D' : Dfa}

/-- What is drawn of the automaton. -/
def picture (D : Dfa) : Picture .dfaState where
  name := "DFA"
  feed_not_mem := by decide +kernel
  ids := D.stateIds
  text := D.stateText
  start := D.start
  accepts := D.acceptsAt
  edges := D.dotEdges

theorem toGraph_eq (D : Dfa) : D.toGraph = D.picture.toGraph := rfl

/-- The automata have the same drawing. -/
structure SameDrawing (D D' : Dfa) : Prop where
  size : D.size = D'.size
  stateLabel : ∀ i, D.stateLabel i = D'.stateLabel i
  isAccepting : ∀ i, D.isAccepting i = D'.isAccepting i
  dotEdges : D.dotEdges = D'.dotEdges

theorem Complete.sameDrawing_of_render_eq (hD : D.Complete) (hD' : D'.Complete)
    (h : D.toGraph.render = D'.toGraph.render) : D.SameDrawing D' := by
  rw [toGraph_eq, toGraph_eq] at h
  have hsame := Picture.same_of_render_eq h
  have hids : D.stateIds = D'.stateIds := hsame.ids
  have hsize : D.size = D'.size := by
    simpa [stateIds] using congrArg List.length hids
  have hmem : ∀ i : DfaStateId, i.toNat < D.size → i ∈ D.picture.ids := fun i =>
    (Index.mem_first hD.size_le).2
  refine ⟨hsize, fun i => ?_, fun i => ?_, hsame.edges⟩
  · rcases Nat.lt_or_ge i.toNat D.size with hi | hi
    · rw [hD.stateLabel_eq hi, hD'.stateLabel_eq (hsize ▸ hi)]
      exact congrArg Except.ok (hsame.text i (hmem i hi))
    · rw [stateLabel_eq_error hi, stateLabel_eq_error (hsize ▸ hi), hsize]
  · exact hD.isAccepting_congr hD' hsize fun hi => hsame.accepts i (hmem i hi)

end Dfa

theorem Nfa.render_ne (N : Nfa) (D : Dfa) : N.toGraph.render ≠ D.toGraph.render := by
  rw [N.toGraph_eq, D.toGraph_eq]
  intro h
  have hname := (Graph.eq_of_render_eq N.picture.wellFormed_toGraph
    D.picture.wellFormed_toGraph h).1
  exact absurd hname (by decide +kernel : "NFA" ≠ "DFA")

/-- **Written drawings are faithful**: those with the same text show the same states, names,
acceptance and edges, and the two kinds of automata have no text in common. -/
theorem dot_faithful :
    (∀ N N' : Nfa, N.toGraph.render = N'.toGraph.render → N.SameDrawing N') ∧
    (∀ N N' : Nfa, N.determinize.size ≤ Index.capacity → N'.determinize.size ≤ Index.capacity →
      N.determinize.toGraph.render = N'.determinize.toGraph.render →
        N.determinize.SameDrawing N'.determinize) ∧
    ∀ N N' : Nfa, N.toGraph.render ≠ N'.determinize.toGraph.render :=
  ⟨fun _ _ => Nfa.sameDrawing_of_render_eq, fun _ _ h h' =>
    (Nfa.complete_determinize h).sameDrawing_of_render_eq (Nfa.complete_determinize h'),
    fun N N' => N.render_ne N'.determinize⟩

/-- The only state has a name that looks like the end of its statement and another start state. -/
def Nfa.forging (alphabet : Alphabet) : Nfa :=
  Definition.assemble ⟨["A\"]\ninit -> q1"], by decide, by decide⟩ alphabet []
    ⟨.ofNat 0, by decide⟩ []

/-- The states `A` and `B` are reached together on each of the symbols `a` and `b`. -/
def Nfa.together : Nfa :=
  Definition.assemble ⟨["A", "B"], by decide, by decide⟩ ⟨["a", "b"], by decide, by decide⟩
    [⟨⟨.ofNat 0, .epsilon, .ofNat 1⟩, by decide, trivial, by decide⟩,
      ⟨⟨.ofNat 0, .symbol (.ofNat 0), .ofNat 0⟩, by decide, Nat.zero_lt_two, by decide⟩,
      ⟨⟨.ofNat 0, .symbol (.ofNat 1), .ofNat 0⟩, by decide, Nat.one_lt_two, by decide⟩]
    ⟨.ofNat 0, by decide⟩ [⟨.ofNat 1, by decide⟩]

/-- The only state and the only symbol have names that list those of `together`. -/
def Nfa.listing : Nfa :=
  Definition.assemble ⟨["A, B"], by decide, by decide⟩ ⟨["a, b"], by decide, by decide⟩
    [⟨⟨.ofNat 0, .symbol (.ofNat 0), .ofNat 0⟩, by decide, Nat.zero_lt_one, by decide⟩]
    ⟨.ofNat 0, by decide⟩ [⟨.ofNat 0, by decide⟩]

/-- Symbols without transitions are not drawn, and `together` and `listing` are determinized to
automata over different alphabets with the same drawing. -/
theorem dot_faithful_together :
    (Nfa.forging ∅).SameDrawing (Nfa.forging Nfa.together.alphabet) ∧
    Nfa.together.determinize.size ≤ Index.capacity ∧
    Nfa.listing.determinize.size ≤ Index.capacity ∧
    Nfa.together.determinize.toGraph.render = Nfa.listing.determinize.toGraph.render ∧
    Nfa.together.determinize ≠ Nfa.listing.determinize ∧
    Nfa.together.determinize.SameDrawing Nfa.listing.determinize := by
  have hcap : Nfa.together.determinize.size ≤ Index.capacity :=
    Nfa.size_determinize_le_capacity (by decide)
  have hcap' : Nfa.listing.determinize.size ≤ Index.capacity :=
    Nfa.size_determinize_le_capacity (by decide)
  have hrender : Nfa.together.determinize.toGraph.render =
      Nfa.listing.determinize.toGraph.render := by decide +kernel
  obtain ⟨hnfa, hdfa, -⟩ := dot_faithful
  refine ⟨hnfa _ _ rfl, hcap, hcap', hrender, fun heq => ?_, hdfa _ _ hcap hcap' hrender⟩
  exact absurd (congrArg (fun D : Dfa => D.alphabet.size) heq) (by decide)

end FiniteAutomata
