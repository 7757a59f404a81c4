import FiniteAutomata.Proofs.DisplayedIds
import FiniteAutomata.Proofs.FirstViolation
import FiniteAutomata.Random.Automaton

/-!
# Random automata are built

Whatever numbers are drawn, by whatever generator, a random automaton only uses names that it
declares (`acceptable_definition`), so its definition is built. Its states and symbols are as many
as are asked for, because the names are all different (`stateName_inj`, `symbolName_inj`): a symbol
after the letters has a name of more than one character. What holds of all draws is put together
from what holds of their steps (`Always.bind`).
-/

namespace FiniteAutomata.Random

variable {σ : Type} {G : Generator σ}

/-! ## What always holds of a draw -/

/-- What is drawn has the property, whatever state the generator is in. -/
def Always {α : Type} (P : α → Prop) (m : Draw σ α) : Prop := ∀ g, P (m.run g).1

namespace Always

variable {α β : Type} {P : α → Prop} {Q : β → Prop} {a : α} {m : Draw σ α}
  {f : α → Draw σ β}

theorem pure (h : P a) : Always P (Pure.pure a : Draw σ α) := fun _ => h

theorem bind (hm : Always P m) (hf : ∀ a, P a → Always Q (f a)) : Always Q (m >>= f) :=
  fun g => hf _ (hm g) (m.run g).2

theorem trivial (m : Draw σ α) : Always (fun _ => True) m := fun _ => True.intro

end Always

theorem always_choose {α : Type} (probability : Float) (xs : List α) :
    Always (fun kept => kept.Sublist xs) (choose G probability xs) := by
  induction xs with
  | nil => exact .pure (List.Sublist.refl [])
  | cons x xs ih =>
    refine .bind (.trivial (chance G probability)) fun keep _ => .bind ih fun rest hrest => .pure ?_
    cases keep with
    | true => exact hrest.cons_cons x
    | false => exact hrest.cons x

/-! ## Names -/

theorem stateName_inj {j k : Nat} : stateName j = stateName k ↔ j = k := by
  rw [stateName, stateName, String.append_right_inj]
  exact Nat.repr_inj

theorem isReserved_stateName (k : Nat) : isReserved (stateName k) = false :=
  isReserved_of_head? (c := 'q') (by simp [stateName]) (by decide) (by decide)

/-- The letter of a symbol that has one. -/
def letter (k : Nat) : Char := Char.ofNat ('a'.toNat + k)

theorem toList_symbolName (k : Nat) :
    (symbolName k).toList = if k < 26 then [letter k] else 's' :: k.repr.toList := by
  unfold symbolName
  split <;> simp [letter]

theorem letter_inj : ∀ j < 26, ∀ k < 26, letter j = letter k → j = k := by decide

theorem letter_ne : ∀ k < 26, letter k ≠ 'ε' ∧ letter k ≠ 'T' := by decide

theorem isReserved_symbolName (k : Nat) : isReserved (symbolName k) = false := by
  have hlist := toList_symbolName k
  split at hlist
  · rename_i hk
    obtain ⟨hepsilon, hsink⟩ := letter_ne k hk
    exact isReserved_of_head? (by rw [hlist, List.head?_cons]) hepsilon hsink
  · exact isReserved_of_head? (by rw [hlist, List.head?_cons]) (by decide) (by decide)

theorem symbolName_inj {j k : Nat} : symbolName j = symbolName k ↔ j = k := by
  refine ⟨fun h => ?_, congrArg symbolName⟩
  have hchars := congrArg String.toList h
  have hnumber : ∀ n : Nat, n.repr.toList ≠ [] := fun n => by
    rw [Nat.toList_repr]
    exact Nat.toDigits_ne_nil
  rw [toList_symbolName, toList_symbolName] at hchars
  -- a letter stands alone, and an `s` before a number does not
  split at hchars <;> split at hchars
  · exact letter_inj j ‹_› k ‹_› (List.cons.inj hchars).1
  · exact absurd (List.cons.inj hchars).2.symm (hnumber k)
  · exact absurd (List.cons.inj hchars).2 (hnumber j)
  · exact Nat.repr_inj.1 (String.toList_inj.1 (List.cons.inj hchars).2)

/-! ## What is drawn -/

/-- The transition uses names of the shape. -/
def Shape.Offers (shape : Shape) (t : NamedTransition) : Prop :=
  t.source ∈ shape.stateNames ∧ (t.label = epsilonName ∨ t.label ∈ shape.symbolNames) ∧
    t.target ∈ shape.stateNames

variable {shape : Shape} {source : String} {targets sources : List String}

theorem always_drawTransitions (hsource : source ∈ shape.stateNames)
    (htargets : ∀ target ∈ targets, target ∈ shape.stateNames) :
    Always (fun ts => ∀ t ∈ ts, shape.Offers t) (drawTransitions G shape source targets) := by
  induction targets with
  | nil => exact .pure (List.forall_mem_nil _)
  | cons target targets ih =>
    rw [List.forall_mem_cons] at htargets
    refine .bind (always_choose _ _) fun reading hreading => .bind (always_choose _ _)
      fun silent hsilent => .bind (ih htargets.2) fun rest hrest => .pure ?_
    refine List.forall_mem_append.2 ⟨List.forall_mem_map.2 fun label hlabel => ?_, hrest⟩
    refine ⟨hsource, ?_, htargets.1⟩
    rcases List.mem_append.1 hlabel with hlabel | hlabel
    · exact .inr (hreading.subset hlabel)
    · exact .inl (List.mem_singleton.1 (hsilent.subset hlabel))

theorem always_drawStates (hsources : ∀ source ∈ sources, source ∈ shape.stateNames) :
    Always (fun drawn => (∀ t ∈ drawn.1, shape.Offers t) ∧ drawn.2.Sublist sources)
      (drawStates G shape sources) := by
  induction sources with
  | nil => exact .pure ⟨List.forall_mem_nil _, List.Sublist.refl []⟩
  | cons source sources ih =>
    rw [List.forall_mem_cons] at hsources
    refine .bind (always_drawTransitions hsources.1 fun _ => id) fun transitions htransitions =>
      .bind (always_choose _ _) fun accepting haccepting => .bind (ih hsources.2) ?_
    rintro ⟨moreTransitions, moreAccepting⟩ ⟨hmore, hmoreAccepting⟩
    exact .pure ⟨List.forall_mem_append.2 ⟨htransitions, hmore⟩,
      haccepting.append hmoreAccepting⟩

/-! ## What is built -/

variable {seed : UInt64}

theorem Shape.length_stateNames (shape : Shape) : shape.stateNames.length = shape.states := by
  rw [stateNames, List.length_map, List.length_range]

theorem Shape.length_symbolNames (shape : Shape) : shape.symbolNames.length = shape.symbols := by
  rw [symbolNames, List.length_map, List.length_range]

theorem stateName_mem_stateNames {k : Nat} : stateName k ∈ shape.stateNames ↔ k < shape.states := by
  simp [Shape.stateNames, stateName_inj]

/-- Whatever is drawn, the definition only uses names that it declares. -/
theorem acceptable_definition (h : 1 ≤ shape.states) : (definition G seed shape).Acceptable := by
  have hdrawn : Always _ (drawStates G shape shape.stateNames) := always_drawStates fun _ => id
  obtain ⟨htransitions, haccepting⟩ := hdrawn (G.ofSeed seed)
  have hstart : stateName 0 ∈ shape.stateNames := stateName_mem_stateNames.2 h
  exact {
    states_ne_nil := List.ne_nil_of_mem hstart
    unreserved_states := List.forall_mem_map.2 fun k _ =>
      unreserved_iff.2 (isReserved_stateName k)
    unreserved_symbols := List.forall_mem_map.2 fun k _ =>
      unreserved_iff.2 (isReserved_symbolName k)
    transitions := fun t ht => by
      obtain ⟨hsource, hlabel, htarget⟩ := htransitions t ht
      exact ⟨hsource, .inr hlabel, htarget⟩
    start := ⟨_, hstart, rfl⟩
    accepting := fun name hname => haccepting.subset hname }

theorem exists_build_definition (hpos : 1 ≤ shape.states) (hstates : shape.states ≤ 2 ^ 32)
    (hsymbols : shape.symbols ≤ 2 ^ 32) : ∃ N, (definition G seed shape).build = .ok N := by
  have hfits : (definition G seed shape).Fits := .of_length_le
    (shape.length_stateNames.trans_le hstates) (shape.length_symbolNames.trans_le hsymbols)
  exact (Definition.carriesOut_build hfits).exists_ok_iff.2
    (Definition.forall_checks_iff.2 (acceptable_definition hpos))

section

variable {N : Nfa} (h : (definition G seed shape).build = .ok N)
include h

theorem states_eq_numbered : N.states = .numbered stateName shape.states :=
  (Definition.describes_of_build h).states_eq

theorem alphabet_eq_numbered : N.alphabet = .numbered symbolName shape.symbols :=
  (Definition.describes_of_build h).alphabet_eq

/-- Each state has the id at its own number. -/
theorem find?_states_iff (hstates : shape.states ≤ 2 ^ 32) {name : String} {q : StateId} :
    N.states.find? name = some q ↔ q.toNat < shape.states ∧ stateName q.toNat = name := by
  rw [states_eq_numbered h, NameTable.find?_numbered (fun _ _ _ _ => stateName_inj.1) hstates]

theorem start_eq (hstates : shape.states ≤ 2 ^ 32) : N.start = .ofNat 0 := by
  obtain ⟨name, hname, hstart⟩ := (Definition.describes_of_build h).start
  obtain rfl : stateName 0 = name := Option.some.inj hname
  obtain ⟨-, hstart⟩ := (find?_states_iff h hstates).1 hstart
  exact Index.ext_toNat (stateName_inj.1 hstart)

end

/-- **Random automata are built, in the shape that is asked for**, whatever generator draws the
numbers, and whatever the seed and the probabilities are. -/
theorem generate_eq_ok {σ : Type} (G : Generator σ) (seed : UInt64) (shape : Shape)
    (hpos : 1 ≤ shape.states) (hstates : shape.states ≤ 2 ^ 32)
    (hsymbols : shape.symbols ≤ 2 ^ 32) :
    ∃ N, generate G seed shape = .ok N ∧ N.size = shape.states ∧
      (∀ k < shape.states, N.name (.ofNat k) = .ok ("q" ++ toString k)) ∧
      N.alphabet.size = shape.symbols ∧ N.alphabet.names = shape.symbolNames ∧
      N.alphabet.names.Nodup ∧ (∀ name ∈ N.alphabet.names, Unreserved name) ∧
      N.start = .ofNat 0 ∧ N.name N.start = .ok "q0" := by
  obtain ⟨N, hN⟩ : ∃ N, (definition G seed shape).build = .ok N :=
    exists_build_definition hpos hstates hsymbols
  have hsymbolNames : N.alphabet.names = shape.symbolNames := by
    rw [alphabet_eq_numbered hN, Shape.symbolNames,
      NameTable.names_numbered (fun _ _ _ _ => symbolName_inj.1) hsymbols]
  have hname : ∀ k < shape.states, N.name (.ofNat k) = .ok (stateName k) := fun k hk => by
    rw [Nfa.name_eq_ok_iff, find?_states_iff hN hstates,
      Index.toNat_ofNat_of_lt (Nat.lt_of_lt_of_le hk hstates)]
    exact ⟨hk, rfl⟩
  have hstart : N.start = .ofNat 0 := start_eq hN hstates
  refine ⟨N, ?_, ?_, hname, ?_, hsymbolNames, N.alphabet.nodup, ?_, hstart, hstart ▸ hname 0 hpos⟩
  · rw [generate, if_neg (Nat.ne_of_gt hpos), hN]
    rfl
  · rw [Nfa.size, states_eq_numbered hN,
      NameTable.size_numbered (fun _ _ _ _ => stateName_inj.1) hstates]
  · rw [NameTable.size, hsymbolNames, Shape.length_symbolNames]
  · rw [hsymbolNames]
    exact List.forall_mem_map.2 fun k _ => unreserved_iff.2 (isReserved_symbolName k)

/-- As the program draws it, with a density that is not a number and one that is infinite, over an
alphabet that goes on after the letters. -/
theorem generate_eq_ok_nan : ∃ N, automaton 7 ⟨3, 28, 0.0 / 0.0, 1.0 / 0.0⟩ = .ok N ∧
    N.size = 3 ∧ N.name (.ofNat 2) = .ok "q2" ∧ N.alphabet.size = 28 ∧
    N.alphabet.name (.ofNat 18) = .ok "s" ∧ N.alphabet.name (.ofNat 26) = .ok "s26" ∧
    N.start = .ofNat 0 := by
  obtain ⟨N, hN, hsize, hname, hsymbols, hnames, -, -, hstart, -⟩ :=
    generate_eq_ok .folding 7 ⟨3, 28, 0.0 / 0.0, 1.0 / 0.0⟩ (by decide) (by decide) (by decide)
  have hsymbol : ∀ a : Symbol, N.alphabet.name? a =
      (Shape.symbolNames ⟨3, 28, 0.0 / 0.0, 1.0 / 0.0⟩)[a.toNat]? := fun a => by
    rw [NameTable.name?, hnames]
  refine ⟨N, hN, hsize, hname 2 (by decide), hsymbols, ?_, ?_, hstart⟩
  · rw [Alphabet.name, hsymbol]
    rfl
  · rw [Alphabet.name, hsymbol]
    rfl

end FiniteAutomata.Random
