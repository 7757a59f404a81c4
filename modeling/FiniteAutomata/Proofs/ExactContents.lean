import FiniteAutomata.Proofs.BuiltAutomata
import FiniteAutomata.Proofs.ReachableSets

/-!
# A definition builds just what it says

The calls that declare an automaton one after the other collect a definition (`Call`,
`collect_eq`), in which the last start state set is the one that counts. What a definition builds
is read off it in full (`Exactly`): names at their first occurrence have the ids 0, 1 and so on, and
a state moves to another just if a transition between their names says so. Nothing else of the
definition is left in the automaton, so definitions that differ in repetitions, in the order of
their transitions and in the spelling of epsilon build the same one (`SameContents.build_eq`).

All this is for up to `2 ^ 32` names of states and of symbols (`Fits`). Past them, names take the
ids of others.
-/

namespace FiniteAutomata

/-! ## Names at their first occurrence -/

theorem length_eraseDups_le {α : Type} [BEq α] [LawfulBEq α] (xs : List α) :
    xs.eraseDups.length ≤ xs.length := by
  induction xs using List.reverseRecOn with
  | nil => exact Nat.le_refl 0
  | append_singleton xs x ih =>
    rw [eraseDups_append_singleton, List.length_append, List.length_append]
    exact Nat.add_le_add ih (by split <;> simp)

namespace NameTable

variable {s : Space} {names names' : List String}

theorem names_ofList_eq_eraseDups (h : names.eraseDups.length ≤ Index.capacity) :
    (ofList names : NameTable s).names = names.eraseDups := by
  induction names using List.reverseRecOn with
  | nil => rfl
  | append_singleton names name ih =>
    have hadd : ofList (names ++ [name]) = (ofList names : NameTable s).add name := by
      rw [ofList, List.foldl_append]
      rfl
    rw [eraseDups_append_singleton, List.length_append] at h
    have hnames := ih (Nat.le_trans (Nat.le_add_right _ _) h)
    rw [hadd, eraseDups_append_singleton]
    split
    · rename_i hmem
      rw [add_of_mem (by rwa [hnames, List.mem_eraseDups]), hnames, List.append_nil]
    · -- the new name counts as distinct, so there is room for it
      rename_i hmem
      rw [if_neg hmem, List.length_singleton] at h
      rw [names_add (by rwa [hnames, List.mem_eraseDups]) (by rwa [size, hnames]), hnames]

theorem ofList_congr (h : names.eraseDups.length ≤ Index.capacity)
    (heq : names.eraseDups = names'.eraseDups) :
    (ofList names : NameTable s) = ofList names' := by
  apply ext_names
  rw [names_ofList_eq_eraseDups h, names_ofList_eq_eraseDups (heq ▸ h), heq]

end NameTable

theorem Nfa.name_eq_ok_iff {N : Nfa} {q : StateId} {name : String} :
    N.name q = .ok name ↔ N.states.find? name = some q := by
  rw [NameTable.find?_eq_some_iff, Nfa.name]
  cases N.states.name? q <;> simp

namespace Alphabet

variable {A : Alphabet} {text : String} {l : Label}

theorem name_eq_ok_iff {a : Symbol} : A.name a = .ok text ↔ A.find? text = some a := by
  rw [NameTable.find?_eq_some_iff, Alphabet.name]
  cases A.name? a <;> simp

/-- The text is a spelling of the label. -/
def Spells (A : Alphabet) (text : String) : Label → Prop
  | .epsilon => text = "" ∨ text = epsilonName
  | .symbol a => A.name a = .ok text

theorem label?_eq_some_iff (h : ∀ name ∈ A.names, isReserved name = false) :
    A.label? text = some l ↔ A.Spells text l := by
  unfold label?
  split
  · rename_i hepsilon
    rw [Option.some.injEq]
    cases l with
    | epsilon => exact iff_of_true rfl (denotesEpsilon_iff.1 hepsilon)
    | symbol a =>
      -- the name of a symbol is not reserved, as the spellings of epsilon are
      refine iff_of_false Label.noConfusion fun hname => ?_
      have hreserved := h text (NameTable.mem_names_of_find? (name_eq_ok_iff.1 hname))
      rw [isReserved, hepsilon] at hreserved
      cases hreserved
  · rename_i hepsilon
    rw [denotesEpsilon_iff] at hepsilon
    cases l with
    | epsilon => simp [Spells, hepsilon]
    | symbol a => simp [Spells, name_eq_ok_iff]

end Alphabet

/-- The transition with one spelling of epsilon for the other. -/
def NamedTransition.respell (t : NamedTransition) : NamedTransition :=
  { t with label := if denotesEpsilon t.label then epsilonName else t.label }

theorem NamedTransition.denotes_respell {states : NameTable .state} {alphabet : Alphabet}
    {t : NamedTransition} {u : Transition} :
    t.respell.Denotes states alphabet u ↔ t.Denotes states alphabet u := by
  have hlabel : alphabet.label? t.respell.label = alphabet.label? t.label := by
    unfold respell Alphabet.label?
    split
    · rfl
    · rfl
  constructor
  · intro h
    exact ⟨h.source, hlabel ▸ h.label, h.target⟩
  · intro h
    exact ⟨h.source, hlabel.symm ▸ h.label, h.target⟩

namespace Definition

variable {d d' : Definition} {N N' : Nfa}

/-! ## Calls that declare -/

/-- A call that declares some of an automaton. -/
inductive Call
  | addStates (names : List String)
  | addState (name : String)
  | addSymbols (names : List String)
  | addSymbol (name : String)
  | addTransitions (ts : List NamedTransition)
  | addTransition (t : NamedTransition)
  | addEpsilon (source target : String)
  | setStart (name : String)
  | addAccepting (names : List String)
  | addAcceptingState (name : String)

namespace Call

/-- The definition with what the call declares. -/
def apply (d : Definition) : Call → Definition
  | addStates names => d.addStates names
  | addState name => d.addState name
  | addSymbols names => d.addSymbols names
  | addSymbol name => d.addSymbol name
  | addTransitions ts => d.addTransitions ts
  | addTransition t => d.addTransition t
  | addEpsilon source target => d.addEpsilon source target
  | setStart name => d.setStart name
  | addAccepting names => d.addAccepting names
  | addAcceptingState name => d.addAcceptingState name

/-- The states that the call declares. -/
def states : Call → List String
  | addStates names => names
  | addState name => [name]
  | _ => []

/-- The symbols that the call declares. -/
def symbols : Call → List String
  | addSymbols names => names
  | addSymbol name => [name]
  | _ => []

/-- The transitions that the call adds. -/
def transitions : Call → List NamedTransition
  | addTransitions ts => ts
  | addTransition t => [t]
  | addEpsilon source target => [⟨source, epsilonName, target⟩]
  | _ => []

/-- The start state that the call sets. -/
def start? : Call → Option String
  | setStart name => some name
  | _ => none

/-- The states that the call marks as accepting. -/
def accepting : Call → List String
  | addAccepting names => names
  | addAcceptingState name => [name]
  | _ => []

theorem apply_eq (d : Definition) (call : Call) : call.apply d =
    ⟨d.states ++ call.states, d.symbols ++ call.symbols, d.transitions ++ call.transitions,
      call.start?.or d.start?, d.accepting ++ call.accepting⟩ := by
  cases call <;> simp [apply, states, symbols, transitions, start?, accepting, Definition.addStates,
    Definition.addState, Definition.addSymbols, Definition.addSymbol, Definition.addTransitions,
    Definition.addTransition, Definition.addEpsilon, Definition.setStart, Definition.addAccepting,
    Definition.addAcceptingState]

end Call

/-- The definition after some calls. -/
def collect (calls : List Call) : Definition := calls.foldl Call.apply ∅

theorem collect_eq (calls : List Call) : collect calls =
    ⟨calls.flatMap Call.states, calls.flatMap Call.symbols, calls.flatMap Call.transitions,
      (calls.filterMap Call.start?).getLast?, calls.flatMap Call.accepting⟩ := by
  induction calls using List.reverseRecOn with
  | nil => rfl
  | append_singleton calls call ih =>
    have hcollect : collect (calls ++ [call]) = call.apply (collect calls) := by
      rw [collect, List.foldl_append]
      rfl
    rw [hcollect, Call.apply_eq, ih]
    simp only [List.flatMap_append, List.flatMap_singleton, List.filterMap_append,
      List.getLast?_append, Definition.mk.injEq, true_and, and_true]
    cases call <;> rfl

/-! ## What is built -/

/-- There are ids for all names. -/
structure Fits (d : Definition) : Prop where
  states : d.states.eraseDups.length ≤ 2 ^ 32
  symbols : d.symbols.eraseDups.length ≤ 2 ^ 32

theorem Fits.of_length_le (hstates : d.states.length ≤ 2 ^ 32)
    (hsymbols : d.symbols.length ≤ 2 ^ 32) : d.Fits :=
  ⟨(length_eraseDups_le _).trans hstates, (length_eraseDups_le _).trans hsymbols⟩

/-- Some transition of the definition goes by name from `q` on `l` to `p`. -/
def Moves (d : Definition) (N : Nfa) (q : StateId) (l : Label) (p : StateId) : Prop :=
  ∃ t ∈ d.transitions, N.name q = .ok t.source ∧ N.alphabet.Spells t.label l ∧
    N.name p = .ok t.target

/-- The automaton is what the definition says and nothing else. -/
structure Exactly (d : Definition) (N : Nfa) : Prop where
  states_names : N.states.names = d.states.eraseDups
  alphabet_names : N.alphabet.names = d.symbols.eraseDups
  name_iff : ∀ q name, N.name q = .ok name ↔ d.states.eraseDups[q.toNat]? = some name
  find?_iff : ∀ q name, N.states.find? name = some q ↔ N.name q = .ok name
  symbol_name_iff : ∀ a name,
    N.alphabet.name a = .ok name ↔ d.symbols.eraseDups[a.toNat]? = some name
  symbol_find?_iff : ∀ a name, N.alphabet.find? name = some a ↔ N.alphabet.name a = .ok name
  mem_targets_iff : ∀ q l p, (∃ S, N.targets? q l = some S ∧ p ∈ S) ↔ d.Moves N q l p
  targets?_eq_none_iff : ∀ q l, N.targets? q l = none ↔ ∀ p, ¬ d.Moves N q l p
  targets_nonempty : ∀ q l S, N.targets? q l = some S → S.toList ≠ []
  start : ∃ name, d.start? = some name ∧ N.name N.start = .ok name
  mem_accepting_iff : ∀ q, q ∈ N.accepting ↔ ∃ name ∈ d.accepting, N.name q = .ok name

theorem Valid.not_reserved_symbol (h : d.Valid) (hd : d.Describes N) :
    ∀ name ∈ N.alphabet.names, isReserved name = false := by
  intro name hname
  rw [hd.alphabet_eq] at hname
  exact h.not_reserved name (.inr (NameTable.mem_of_mem_names_ofList hname))

theorem Describes.holds_iff_moves (hd : d.Describes N) (h : d.Valid) {q : StateId} {l : Label}
    {p : StateId} : N.relation.Holds ⟨q, l, p⟩ ↔ d.Moves N q l p := by
  have hlabel : ∀ text, N.alphabet.label? text = some l ↔ N.alphabet.Spells text l :=
    fun _ => Alphabet.label?_eq_some_iff (h.not_reserved_symbol hd)
  rw [hd.holds_iff]
  simp only [Moves, Nfa.name_eq_ok_iff, ← hlabel]
  constructor
  · rintro ⟨t, ht, hsource, hlabel, htarget⟩
    exact ⟨t, ht, hsource, hlabel, htarget⟩
  · rintro ⟨t, ht, hsource, hlabel, htarget⟩
    exact ⟨t, ht, hsource, hlabel, htarget⟩

theorem exactly_of_build (hfits : d.Fits) (h : d.build = .ok N) : d.Exactly N := by
  have hd := describes_of_build h
  have hvalid := exists_build_iff.1 ⟨N, h⟩
  have hstates : N.states.names = d.states.eraseDups := by
    rw [hd.states_eq, NameTable.names_ofList_eq_eraseDups hfits.states]
  have hsymbols : N.alphabet.names = d.symbols.eraseDups := by
    rw [hd.alphabet_eq, NameTable.names_ofList_eq_eraseDups hfits.symbols]
  refine
    { states_names := hstates
      alphabet_names := hsymbols
      name_iff := fun q name => ?_
      find?_iff := fun q name => Nfa.name_eq_ok_iff.symm
      symbol_name_iff := fun a name => ?_
      symbol_find?_iff := fun a name => Alphabet.name_eq_ok_iff.symm
      mem_targets_iff := fun q l p => ?_
      targets?_eq_none_iff := fun q l => ?_
      targets_nonempty := fun q l S hS hnil => ?_
      start := ?_
      mem_accepting_iff := fun q => ?_ }
  · rw [Nfa.name_eq_ok_iff, NameTable.find?_eq_some_iff, NameTable.name?, hstates]
  · rw [Alphabet.name_eq_ok_iff, NameTable.find?_eq_some_iff, NameTable.name?, hsymbols]
  · rw [← hd.holds_iff_moves hvalid, Relation.holds_iff_targets?]
    rfl
  · simp only [← hd.holds_iff_moves hvalid]
    exact Relation.targets?_eq_none_iff
  · have hempty := N.relation.isEmpty_eq_false (q, l) S hS
    rw [StateSet.isEmpty, hnil] at hempty
    cases hempty
  · obtain ⟨name, hstart, hname⟩ := hd.start
    exact ⟨name, hstart, Nfa.name_eq_ok_iff.2 hname⟩
  · simp only [hd.mem_accepting, Nfa.name_eq_ok_iff]

/-! ## Definitions that say the same -/

/-- The definitions have the same names in the order of their first occurrences, the same start
state, and the same sets of transitions, up to the spelling of epsilon, and of accepting states. -/
structure SameContents (d d' : Definition) : Prop where
  states : d.states.eraseDups = d'.states.eraseDups
  symbols : d.symbols.eraseDups = d'.symbols.eraseDups
  transitions : ∀ t, t ∈ d.transitions.map NamedTransition.respell ↔
    t ∈ d'.transitions.map NamedTransition.respell
  start : d.start? = d'.start?
  accepting : ∀ name, name ∈ d.accepting ↔ name ∈ d'.accepting

theorem exists_denotes_iff {states : NameTable .state} {alphabet : Alphabet} {u : Transition} :
    (∃ t ∈ d.transitions, t.Denotes states alphabet u) ↔
      ∃ t ∈ d.transitions.map NamedTransition.respell, t.Denotes states alphabet u := by
  simp only [List.mem_map, exists_exists_and_eq_and, NamedTransition.denotes_respell]

namespace SameContents

theorem mem_states (h : d.SameContents d') {name : String} :
    name ∈ d.states ↔ name ∈ d'.states := by
  rw [← List.mem_eraseDups, h.states, List.mem_eraseDups]

theorem mem_symbols (h : d.SameContents d') {name : String} :
    name ∈ d.symbols ↔ name ∈ d'.symbols := by
  rw [← List.mem_eraseDups, h.symbols, List.mem_eraseDups]

variable (h : d.SameContents d') (hfits : d.Fits)
include h hfits

theorem ofList_states : (.ofList d.states : NameTable .state) = .ofList d'.states :=
  NameTable.ofList_congr hfits.states h.states

theorem ofList_symbols : (.ofList d.symbols : Alphabet) = .ofList d'.symbols :=
  NameTable.ofList_congr hfits.symbols h.symbols

theorem valid (hd : d.Valid) : d'.Valid where
  states_ne_nil := by
    obtain ⟨name, hname⟩ := List.exists_mem_of_ne_nil _ hd.states_ne_nil
    exact List.ne_nil_of_mem (h.mem_states.1 hname)
  not_reserved name hname :=
    hd.not_reserved name (hname.imp h.mem_states.2 h.mem_symbols.2)
  transitions t ht := by
    obtain ⟨t', ht', heq⟩ := List.mem_map.1 ((h.transitions t.respell).2 (List.mem_map_of_mem ht))
    obtain ⟨u, hu⟩ := hd.transitions t' ht'
    rw [h.ofList_states hfits, h.ofList_symbols hfits] at hu
    exact ⟨u, NamedTransition.denotes_respell.1 (heq ▸ NamedTransition.denotes_respell.2 hu)⟩
  start := by
    rw [← h.start, ← h.ofList_states hfits]
    exact hd.start
  accepting name hname := by
    rw [← h.ofList_states hfits]
    exact hd.accepting name ((h.accepting name).2 hname)

theorem describes (hd : d.Describes N) : d'.Describes N where
  states_eq := hd.states_eq.trans (h.ofList_states hfits)
  alphabet_eq := hd.alphabet_eq.trans (h.ofList_symbols hfits)
  holds_iff u := by
    rw [hd.holds_iff, exists_denotes_iff, exists_denotes_iff]
    simp only [h.transitions]
  start := h.start ▸ hd.start
  mem_accepting q := by
    rw [hd.mem_accepting]
    simp only [h.accepting]

end SameContents

theorem Describes.start_eq (h : d.Describes N) (h' : d'.Describes N')
    (hstates : N.states = N'.states) (hstart : d.start? = d'.start?) : N.start = N'.start := by
  obtain ⟨name, hname, hq⟩ := h.start
  obtain ⟨name', hname', hq'⟩ := h'.start
  obtain rfl : name = name' := Option.some.inj (hname.symm.trans (hstart.trans hname'))
  exact Option.some.inj (hq.symm.trans (hstates ▸ hq'))

/-- A definition describes one automaton at most. -/
theorem Describes.unique (h : d.Describes N) (h' : d.Describes N') : N = N' := by
  have hstates : N.states = N'.states := h.states_eq.trans h'.states_eq.symm
  have halphabet : N.alphabet = N'.alphabet := h.alphabet_eq.trans h'.alphabet_eq.symm
  have hrelation : N.relation = N'.relation := Relation.ext_holds fun u => by
    rw [h.holds_iff, h'.holds_iff, hstates, halphabet]
  have hstart : N.start = N'.start := h.start_eq h' hstates rfl
  have haccepting : N.accepting = N'.accepting := StateSet.ext fun q => by
    rw [h.mem_accepting, h'.mem_accepting, hstates]
  exact Nfa.ext_parts hstates halphabet hrelation hstart haccepting

theorem SameContents.build_eq (h : d.SameContents d') (hfits : d.Fits) (hd : d.build = .ok N) :
    d'.build = .ok N := by
  obtain ⟨N', hN'⟩ := exists_build_iff.2 (h.valid hfits (exists_build_iff.1 ⟨N, hd⟩))
  rw [hN', (h.describes hfits (describes_of_build hd)).unique (describes_of_build hN')]

/-- **An automaton is built with just what its definition says**, whatever calls collected it: it
has the declared names, transitions and special states and nothing else, and definitions that say
the same build the same automaton. -/
theorem build_exactly :
    (∀ calls : List Call, collect calls =
      { states := calls.flatMap Call.states
        symbols := calls.flatMap Call.symbols
        transitions := calls.flatMap Call.transitions
        start? := (calls.filterMap Call.start?).getLast?
        accepting := calls.flatMap Call.accepting }) ∧
    ∀ (d : Definition) (N : Nfa), d.Fits → d.build = .ok N →
      d.Exactly N ∧ ∀ d', d.SameContents d' → d'.build = .ok N :=
  ⟨collect_eq, fun _ _ hfits h =>
    ⟨exactly_of_build hfits h, fun _ hsame => hsame.build_eq hfits h⟩⟩

/-- The calls declare `readsA` with repetitions, in another order, and with another start first. -/
def callsForReadsA : List Call :=
  [.addAcceptingState "C", .addStates ["A", "B", "A"], .setStart "B", .addState "C",
    .addTransition ⟨"B", "a", "C"⟩, .addSymbols ["a", "a"], .addTransitions [⟨"A", "", "B"⟩],
    .setStart "A", .addAccepting ["C"], .addEpsilon "A" "B"]

theorem sameContents_callsForReadsA : readsA.SameContents (collect callsForReadsA) where
  states := by decide +kernel
  symbols := by decide +kernel
  transitions t := by
    have hdeclared : readsA.transitions.map NamedTransition.respell =
        [⟨"A", "ε", "B"⟩, ⟨"B", "a", "C"⟩] := by decide +kernel
    have hcollected : (collect callsForReadsA).transitions.map NamedTransition.respell =
        [⟨"B", "a", "C"⟩, ⟨"A", "ε", "B"⟩, ⟨"A", "ε", "B"⟩] := by decide +kernel
    rw [hdeclared, hcollected, List.mem_pair, List.mem_cons, List.mem_pair, or_self, or_comm]
  start := by decide +kernel
  accepting name := by
    have hcollected : (collect callsForReadsA).accepting = ["C", "C"] := by decide +kernel
    rw [hcollected, List.mem_pair, or_self]
    exact List.mem_singleton

theorem build_exactly_readsA : readsA.Exactly Nfa.readsA ∧
    (collect callsForReadsA).build = .ok Nfa.readsA := by
  have hfits : readsA.Fits := ⟨by decide +kernel, by decide +kernel⟩
  obtain ⟨hexactly, hsame⟩ := build_exactly.2 readsA Nfa.readsA hfits build_readsA
  exact ⟨hexactly, hsame _ sameContents_callsForReadsA⟩

end Definition

end FiniteAutomata
