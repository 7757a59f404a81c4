import FiniteAutomata.Proofs.RandomAutomata

/-!
# The densities of random automata act independently

Two random automata of the same seed and size are drawn in step: whether something is kept never
changes how many numbers are drawn, so the generator, whichever it is, is in the same state
throughout (`Coupled`). Therefore they have the same accepting states whatever the densities are,
the same transitions on symbols if the densities of these are the same, and the same epsilon
transitions if the densities of those are (`SameDraws`, `coupled_drawStates`). The automata that are
built keep the two kinds of transitions apart (`Definition.Describes.holds_iff_ofKind`), so the same
holds of them.

Densities are the same in effect if every number is below both or below neither (`SameThreshold`).
That makes all densities that are not numbers the same, since nothing is below them.
-/

namespace FiniteAutomata

/-! ## Two kinds of transitions -/

/-- The transitions that read nothing, or those that read a symbol. -/
def ofKind (silent : Bool) (ts : List NamedTransition) : List NamedTransition :=
  ts.filter (denotesEpsilon ·.label == silent)

theorem ofKind_append (silent : Bool) (ts us : List NamedTransition) :
    ofKind silent (ts ++ us) = ofKind silent ts ++ ofKind silent us :=
  List.filter_append ..

theorem ofKind_map {kind silent : Bool} {labels : List String} {source target : String}
    (h : ∀ label ∈ labels, denotesEpsilon label = kind) :
    ofKind silent (labels.map (⟨source, ·, target⟩)) =
      if kind = silent then labels.map (⟨source, ·, target⟩) else [] := by
  split
  · refine List.filter_eq_self.2 (List.forall_mem_map.2 fun label hlabel => ?_)
    simp_all
  · refine List.filter_eq_nil_iff.2 (List.forall_mem_map.2 fun label hlabel => ?_)
    simp_all

theorem NamedTransition.Denotes.isEpsilon_eq {states : NameTable .state} {alphabet : Alphabet}
    {t : NamedTransition} {u : Transition} (h : t.Denotes states alphabet u) :
    u.label.isEpsilon = denotesEpsilon t.label := by
  have hlabel := h.label
  unfold Alphabet.label? at hlabel
  split at hlabel
  · rename_i hepsilon
    rw [← Option.some.inj hlabel, hepsilon]
    rfl
  · rename_i hepsilon
    obtain ⟨a, -, ha⟩ := Option.map_eq_some_iff.1 hlabel
    rw [← ha, Bool.eq_false_iff.2 hepsilon]
    rfl

/-- A transition of the automaton comes from one of its kind. -/
theorem Definition.Describes.holds_iff_ofKind {d : Definition} {N : Nfa} (hd : d.Describes N)
    (u : Transition) : N.relation.Holds u ↔
      ∃ t ∈ ofKind u.label.isEpsilon d.transitions, t.Denotes N.states N.alphabet u := by
  rw [hd.holds_iff]
  constructor
  · rintro ⟨t, ht, hu⟩
    exact ⟨t, List.mem_filter.2 ⟨ht, beq_iff_eq.2 hu.isEpsilon_eq.symm⟩, hu⟩
  · rintro ⟨t, ht, hu⟩
    exact ⟨t, (List.mem_filter.1 ht).1, hu⟩

/-! ## Computations in step -/

namespace Random

variable {σ : Type} {G : Generator σ}

/-- In the same state of the generator, both computations leave the same one, and what they draw is
related. -/
def Coupled {α β : Type} (R : α → β → Prop) (m : Draw σ α) (m' : Draw σ β) : Prop :=
  ∀ g, R (m.run g).1 (m'.run g).1 ∧ (m.run g).2 = (m'.run g).2

namespace Coupled

variable {α β γ δ : Type} {R : α → β → Prop} {S : γ → δ → Prop} {a : α} {b : β} {m : Draw σ α}
  {m' : Draw σ β} {f : α → Draw σ γ} {f' : β → Draw σ δ}

theorem pure (h : R a b) : Coupled R (Pure.pure a : Draw σ α) (Pure.pure b) := fun _ => ⟨h, rfl⟩

theorem refl (m : Draw σ α) : Coupled Eq m m := fun _ => ⟨rfl, rfl⟩

theorem bind (hm : Coupled R m m') (hf : ∀ a b, R a b → Coupled S (f a) (f' b)) :
    Coupled S (m >>= f) (m' >>= f') := by
  intro g
  obtain ⟨hdrawn, hstate⟩ := hm g
  have hrest := hf _ _ hdrawn (m.run g).2
  rw [hstate] at hrest
  show S ((f (m.run g).1).run (m.run g).2).1 ((f' (m'.run g).1).run (m'.run g).2).1 ∧
    ((f (m.run g).1).run (m.run g).2).2 = ((f' (m'.run g).1).run (m'.run g).2).2
  rwa [hstate]

/-- What always holds of each of the results is known of related ones. -/
theorem always {P : α → Prop} {Q : β → Prop} (h : Coupled R m m') (hm : Always P m)
    (hm' : Always Q m') : Coupled (fun a b => R a b ∧ P a ∧ Q b) m m' :=
  fun g => ⟨⟨(h g).1, hm g, hm' g⟩, (h g).2⟩

end Coupled

/-! ## Choices -/

/-- Every number is below both or below neither. -/
def SameThreshold (p p' : Float) : Prop := ∀ x : Float, x < p ↔ x < p'

theorem coupled_chance (p p' : Float) :
    Coupled (fun keep keep' => SameThreshold p p' → keep = keep') (chance G p) (chance G p') :=
  .bind (.refl G.next) fun x _ hx => .pure fun h => hx ▸ decide_eq_decide.2 (h x)

theorem coupled_choose {α : Type} (p p' : Float) (xs : List α) :
    Coupled (fun kept kept' => SameThreshold p p' → kept = kept') (choose G p xs)
      (choose G p' xs) := by
  induction xs with
  | nil => exact .pure fun _ => rfl
  | cons x xs ih =>
    refine .bind (coupled_chance p p') fun keep keep' hkeep => .bind ih fun rest rest' hrest =>
      .pure fun h => ?_
    rw [hkeep h, hrest h]

/-! ## Transitions -/

/-- The transitions of a kind are the same if its densities are. -/
structure SameDraws (density density' epsilonDensity epsilonDensity' : Float)
    (ts ts' : List NamedTransition) : Prop where
  reading : SameThreshold density density' → ofKind false ts = ofKind false ts'
  silent : SameThreshold epsilonDensity epsilonDensity' → ofKind true ts = ofKind true ts'

variable {states symbols : Nat} {density density' epsilonDensity epsilonDensity' : Float}

theorem SameDraws.append {ts ts' us us' : List NamedTransition}
    (h : SameDraws density density' epsilonDensity epsilonDensity' ts ts')
    (hmore : SameDraws density density' epsilonDensity epsilonDensity' us us') :
    SameDraws density density' epsilonDensity epsilonDensity' (ts ++ us) (ts' ++ us') where
  reading hsame := by rw [ofKind_append, ofKind_append, h.reading hsame, hmore.reading hsame]
  silent hsame := by rw [ofKind_append, ofKind_append, h.silent hsame, hmore.silent hsame]

theorem denotesEpsilon_symbolName (k : Nat) : denotesEpsilon (symbolName k) = false :=
  (Bool.or_eq_false_iff.1 (isReserved_symbolName k)).1

/-- Of what is drawn between two states, the transitions of a kind are those of one choice. -/
theorem ofKind_map_append {shape : Shape} {reading silent : List String}
    (hreading : reading.Sublist shape.symbolNames) (hsilent : silent.Sublist [epsilonName])
    (kind : Bool) (source target : String) :
    ofKind kind ((reading ++ silent).map (⟨source, ·, target⟩)) =
      (if kind then silent else reading).map (⟨source, ·, target⟩) := by
  have hsymbols : ∀ label ∈ reading, denotesEpsilon label = false := fun label hlabel => by
    obtain ⟨k, -, rfl⟩ := List.mem_map.1 (hreading.subset hlabel)
    exact denotesEpsilon_symbolName k
  have hepsilon : ∀ label ∈ silent, denotesEpsilon label = true := fun label hlabel => by
    rw [List.mem_singleton.1 (hsilent.subset hlabel)]
    decide
  rw [List.map_append, ofKind_append, ofKind_map hsymbols, ofKind_map hepsilon]
  cases kind <;> simp

theorem coupled_drawTransitions (source : String) (targets : List String) :
    Coupled (SameDraws density density' epsilonDensity epsilonDensity')
      (drawTransitions G ⟨states, symbols, density, epsilonDensity⟩ source targets)
      (drawTransitions G ⟨states, symbols, density', epsilonDensity'⟩ source targets) := by
  induction targets with
  | nil => exact .pure ⟨fun _ => rfl, fun _ => rfl⟩
  | cons target targets ih =>
    refine .bind ((coupled_choose _ _ _).always (always_choose _ _) (always_choose _ _))
      fun reading reading' ⟨hreading, hsub, hsub'⟩ => ?_
    refine .bind ((coupled_choose _ _ _).always (always_choose _ _) (always_choose _ _))
      fun silent silent' ⟨hsilent, hsingle, hsingle'⟩ => ?_
    refine .bind ih fun rest rest' hrest => .pure (SameDraws.append ?_ hrest)
    constructor
    · intro hsame
      rw [ofKind_map_append hsub hsingle, ofKind_map_append hsub' hsingle', hreading hsame]
      rfl
    · intro hsame
      rw [ofKind_map_append hsub hsingle, ofKind_map_append hsub' hsingle', hsilent hsame]
      rfl

theorem coupled_drawStates (sources : List String) :
    Coupled (fun drawn drawn' =>
        SameDraws density density' epsilonDensity epsilonDensity' drawn.1 drawn'.1 ∧
          drawn.2 = drawn'.2)
      (drawStates G ⟨states, symbols, density, epsilonDensity⟩ sources)
      (drawStates G ⟨states, symbols, density', epsilonDensity'⟩ sources) := by
  induction sources with
  | nil => exact .pure ⟨⟨fun _ => rfl, fun _ => rfl⟩, rfl⟩
  | cons source sources ih =>
    refine .bind (coupled_drawTransitions source _) fun transitions transitions' htransitions =>
      .bind (.refl _) ?_
    rintro accepting _ rfl
    refine .bind ih ?_
    rintro ⟨moreTransitions, moreAccepting⟩ ⟨moreTransitions', _⟩ ⟨hmore, rfl⟩
    exact .pure ⟨htransitions.append hmore, rfl⟩

/-! ## Automata -/

theorem generate_eq_ok_iff {seed : UInt64} {shape : Shape} {N : Nfa} :
    generate G seed shape = .ok N ↔ shape.states ≠ 0 ∧ (definition G seed shape).build = .ok N := by
  unfold generate
  split
  · simp [*]
  · cases (definition G seed shape).build <;> simp [*, Except.mapError]

theorem sameDraws_definition (seed : UInt64) :
    SameDraws density density' epsilonDensity epsilonDensity'
        (definition G seed ⟨states, symbols, density, epsilonDensity⟩).transitions
        (definition G seed ⟨states, symbols, density', epsilonDensity'⟩).transitions ∧
      (definition G seed ⟨states, symbols, density, epsilonDensity⟩).accepting =
        (definition G seed ⟨states, symbols, density', epsilonDensity'⟩).accepting :=
  (coupled_drawStates _ (G.ofSeed seed)).1

/-- What automata of the same size have in common, whatever their densities are, and what they have
in common if a density is the same. -/
structure SameApartFrom (density density' epsilonDensity epsilonDensity' : Float) (N N' : Nfa) :
    Prop where
  states : N.states = N'.states
  alphabet : N.alphabet = N'.alphabet
  start : N.start = N'.start
  accepting : N.accepting = N'.accepting
  reading : SameThreshold density density' →
    ∀ q a, N.targets? q (.symbol a) = N'.targets? q (.symbol a)
  silent : SameThreshold epsilonDensity epsilonDensity' →
    ∀ q, N.targets? q .epsilon = N'.targets? q .epsilon

theorem sameApartFrom_of_build {seed : UInt64} {N N' : Nfa}
    (h : (definition G seed ⟨states, symbols, density, epsilonDensity⟩).build = .ok N)
    (h' : (definition G seed ⟨states, symbols, density', epsilonDensity'⟩).build = .ok N') :
    SameApartFrom density density' epsilonDensity epsilonDensity' N N' := by
  have hd := Definition.describes_of_build h
  have hd' := Definition.describes_of_build h'
  obtain ⟨hdraws, hdrawn⟩ : SameDraws density density' epsilonDensity epsilonDensity' _ _ ∧ _ :=
    sameDraws_definition seed
  have hstates : N.states = N'.states := hd.states_eq.trans hd'.states_eq.symm
  have halphabet : N.alphabet = N'.alphabet := hd.alphabet_eq.trans hd'.alphabet_eq.symm
  refine ⟨hstates, halphabet, hd.start_eq hd' hstates rfl, StateSet.ext fun q => ?_,
    fun hsame q a => ?_, fun hsame q => ?_⟩
  · rw [hd.mem_accepting, hd'.mem_accepting, hstates, hdrawn]
  · refine Relation.targets?_congr fun p => ?_
    rw [hd.holds_iff_ofKind, hd'.holds_iff_ofKind, hstates, halphabet]
    show (∃ t ∈ ofKind false _, _) ↔ _
    rw [hdraws.reading hsame]
    rfl
  · refine Relation.targets?_congr fun p => ?_
    rw [hd.holds_iff_ofKind, hd'.holds_iff_ofKind, hstates, halphabet]
    show (∃ t ∈ ofKind true _, _) ↔ _
    rw [hdraws.silent hsame]
    rfl

/-- **The two densities act independently.** Random automata of the same seed and size have the same
states, alphabet, start and accepting states, the same transitions on symbols unless the densities
of these differ, and the same epsilon transitions unless the densities of those differ, whatever
generator draws the numbers. As long as there are ids for all names, both of them are there. -/
theorem densities_independent {σ : Type} (G : Generator σ) (seed : UInt64) (states symbols : Nat)
    (density density' epsilonDensity epsilonDensity' : Float) (hpos : 1 ≤ states) :
    (states ≤ 2 ^ 32 → symbols ≤ 2 ^ 32 →
      ∃ N N', generate G seed ⟨states, symbols, density, epsilonDensity⟩ = .ok N ∧
        generate G seed ⟨states, symbols, density', epsilonDensity'⟩ = .ok N') ∧
    ∀ N N', generate G seed ⟨states, symbols, density, epsilonDensity⟩ = .ok N →
      generate G seed ⟨states, symbols, density', epsilonDensity'⟩ = .ok N' →
      SameApartFrom density density' epsilonDensity epsilonDensity' N N' := by
  constructor
  · intro hstates hsymbols
    have hbuilt : ∀ p p', ∃ N, (definition G seed ⟨states, symbols, p, p'⟩).build = .ok N :=
      fun _ _ => exists_build_definition hpos hstates hsymbols
    obtain ⟨N, hN⟩ := hbuilt density epsilonDensity
    obtain ⟨N', hN'⟩ := hbuilt density' epsilonDensity'
    exact ⟨N, N', generate_eq_ok_iff.2 ⟨Nat.ne_of_gt hpos, hN⟩,
      generate_eq_ok_iff.2 ⟨Nat.ne_of_gt hpos, hN'⟩⟩
  · intro N N' h h'
    exact sameApartFrom_of_build (generate_eq_ok_iff.1 h).2 (generate_eq_ok_iff.1 h').2

/-- As the program draws them, with symbols drawn never and always, and the same epsilon
transitions. -/
theorem densities_independent_extremes : ∃ N N', automaton 7 ⟨3, 2, 0.0 / 0.0, 0.25⟩ = .ok N ∧
    automaton 7 ⟨3, 2, 1.0 / 0.0, 0.25⟩ = .ok N' ∧ N.accepting = N'.accepting ∧
    ∀ q, N.targets? q .epsilon = N'.targets? q .epsilon := by
  obtain ⟨hexists, hsame⟩ :=
    densities_independent .folding 7 3 2 (0.0 / 0.0) (1.0 / 0.0) 0.25 0.25 (by decide)
  obtain ⟨N, N', hN, hN'⟩ := hexists (by decide) (by decide)
  have hparts := hsame N N' hN hN'
  exact ⟨N, N', hN, hN', hparts.accepting, hparts.silent fun _ => Iff.rfl⟩

end Random

end FiniteAutomata
