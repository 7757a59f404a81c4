import Mathlib.Data.List.Forall2
import Mathlib.Data.List.Induction
import FiniteAutomata.Definition.Build

/-!
# What a definition builds

`d.Valid`: the definition `d` passes all checks, and `d.Describes N`: the parts of `N` are what the
names in `d` denote. Just the valid definitions build an automaton (`exists_build_iff`), and each
describes what it builds (`describes_of_build`).

The parts are read off one function at a time: `resolve_eq_some_iff`, `foundOr_eq_ok_iff` and
`mapM_eq_ok_iff` say when each of them succeeds, and with what.
-/

namespace FiniteAutomata

/-! ## Results that may be errors -/

section

variable {ε α β : Type}

theorem bind_eq_ok_iff {x : Except ε α} {f : α → Except ε β} {b : β} :
    (x >>= f) = .ok b ↔ ∃ a, x = .ok a ∧ f a = .ok b := by
  cases x <;> simp [bind, Except.bind]

theorem foundOr_eq_ok_iff {found : Option α} {error : ε} {x : α} :
    foundOr found error = .ok x ↔ found = some x := by
  cases found <;> simp [foundOr]

theorem mapM_eq_ok_iff {f : α → Except ε β} {xs : List α} {ys : List β} :
    xs.mapM f = .ok ys ↔ List.Forall₂ (fun x y => f x = .ok y) xs ys := by
  induction xs generalizing ys with
  | nil => cases ys <;> simp [pure, Except.pure]
  | cons x xs ih =>
    simp only [List.mapM_cons, bind_eq_ok_iff, ih, pure, Except.pure, Except.ok.injEq]
    constructor
    · rintro ⟨y, hy, ys, hys, rfl⟩
      exact .cons hy hys
    · intro h
      cases h with
      | cons hy hys => exact ⟨_, hy, _, hys, rfl⟩

theorem mem_of_mapM_eq_ok {f : α → Except ε β} {xs : List α} {ys : List β}
    (h : xs.mapM f = .ok ys) {y : β} : y ∈ ys ↔ ∃ x ∈ xs, f x = .ok y := by
  rw [mapM_eq_ok_iff] at h
  induction h with
  | nil => simp
  | @cons x y' xs ys hy _ ih =>
    rw [List.mem_cons, ih, List.exists_mem_cons_iff, hy, Except.ok.injEq, eq_comm]

theorem exists_mapM_eq_ok_iff {f : α → Except ε β} {xs : List α} :
    (∃ ys, xs.mapM f = .ok ys) ↔ ∀ x ∈ xs, ∃ y, f x = .ok y := by
  simp only [mapM_eq_ok_iff]
  induction xs with
  | nil => simp
  | cons x xs ih =>
    rw [List.forall_mem_cons, ← ih]
    constructor
    · rintro ⟨ys, h⟩
      cases h with
      | cons hy hys => exact ⟨⟨_, hy⟩, _, hys⟩
    · rintro ⟨⟨y, hy⟩, ys, hys⟩
      exact ⟨y :: ys, .cons hy hys⟩

end

/-! ## Names and what they denote -/

namespace NameTable

variable {s : Space} {t : NameTable s} {i : Index s} {name name' : String}

theorem find?_inj (h : t.find? name = some i) (h' : t.find? name' = some i) : name = name' := by
  rw [find?_eq_some_iff] at h h'
  exact Option.some.inj (h.symm.trans h')

theorem mem_names_of_find? (h : t.find? name = some i) : name ∈ t.names := by
  obtain ⟨hi, hname⟩ := name?_eq_some_iff.1 (find?_eq_some_iff.1 h)
  exact hname ▸ List.getElem_mem hi

theorem mem_of_mem_names_add (h : name ∈ (t.add name').names) : name = name' ∨ name ∈ t.names := by
  unfold add at h
  split at h
  · exact .inr h
  · split at h
    · exact (List.mem_append.1 h).symm.imp List.mem_singleton.1 id
    · exact (List.mem_or_eq_of_mem_set h).symm

/-- A table has only names that it is made of. -/
theorem mem_of_mem_names_ofList {names : List String}
    (h : name ∈ (ofList names : NameTable s).names) : name ∈ names := by
  induction names using List.reverseRecOn with
  | nil => exact h
  | append_singleton names name' ih =>
    unfold ofList at h
    rw [List.foldl_append] at h
    rcases mem_of_mem_names_add h with rfl | h
    · exact List.mem_append_right names (List.mem_singleton_self name)
    · exact List.mem_append_left _ (ih h)

end NameTable

theorem NameTable.resolve_eq_some_iff {s : Space} {t : NameTable s} {name : String}
    {i : { i : Index s // t.Has i }} : t.resolve name = some i ↔ t.find? name = some i.1 := by
  unfold resolve
  split <;> simp_all [Subtype.ext_iff]

theorem Alphabet.resolveLabel_eq_some_iff {A : Alphabet} {text : String}
    {l : { l : Label // A.HasLabel l }} :
    A.resolveLabel text = some l ↔ A.label? text = some l.1 := by
  unfold resolveLabel
  split <;> simp_all [Subtype.ext_iff]

theorem Alphabet.label?_of_not_reserved {A : Alphabet} {text : String}
    (h : isReserved text = false) : A.label? text = (A.find? text).map .symbol := by
  refine if_neg fun hepsilon => ?_
  rw [isReserved, hepsilon] at h
  cases h

/-- The texts of the transition denote the parts of `u`. -/
structure NamedTransition.Denotes (states : NameTable .state) (alphabet : Alphabet)
    (t : NamedTransition) (u : Transition) : Prop where
  source : states.find? t.source = some u.source
  label : alphabet.label? t.label = some u.label
  target : states.find? t.target = some u.target

theorem NamedTransition.Denotes.within {states : NameTable .state} {alphabet : Alphabet}
    {t : NamedTransition} {u : Transition} (h : t.Denotes states alphabet u) :
    u.Within states alphabet :=
  ⟨NameTable.has_of_find? h.source, Alphabet.hasLabel_of_label? h.label,
    NameTable.has_of_find? h.target⟩

/-- The texts of a transition denote one thing at most. -/
theorem NamedTransition.Denotes.unique {states : NameTable .state} {alphabet : Alphabet}
    {t : NamedTransition} {u v : Transition} (hu : t.Denotes states alphabet u)
    (hv : t.Denotes states alphabet v) : u = v := by
  obtain ⟨q, l, p⟩ := u
  obtain ⟨q', l', p'⟩ := v
  obtain rfl : q = q' := Option.some.inj (hu.source.symm.trans hv.source)
  obtain rfl : l = l' := Option.some.inj (hu.label.symm.trans hv.label)
  obtain rfl : p = p' := Option.some.inj (hu.target.symm.trans hv.target)
  rfl

namespace Definition

variable {d : Definition} {N : Nfa} {states : NameTable .state} {alphabet : Alphabet}

theorem resolveTransition_eq_ok_iff {t : NamedTransition}
    {u : { u : Transition // u.Within states alphabet }} :
    resolveTransition states alphabet t = .ok u ↔ t.Denotes states alphabet u.1 := by
  simp only [resolveTransition, bind_eq_ok_iff, foundOr_eq_ok_iff,
    NameTable.resolve_eq_some_iff, Alphabet.resolveLabel_eq_some_iff, pure, Except.pure,
    Except.ok.injEq]
  constructor
  · rintro ⟨q, hq, l, hl, p, hp, rfl⟩
    exact ⟨hq, hl, hp⟩
  · intro h
    exact ⟨⟨_, u.2.source_has⟩, h.source, ⟨_, u.2.label_has⟩, h.label, ⟨_, u.2.target_has⟩,
      h.target, rfl⟩

/-! ## The checks -/

/-- All that is asked of a definition. -/
structure Valid (d : Definition) : Prop where
  states_ne_nil : d.states ≠ []
  not_reserved : ∀ name, name ∈ d.states ∨ name ∈ d.symbols → isReserved name = false
  transitions : ∀ t ∈ d.transitions, ∃ u, t.Denotes (.ofList d.states) (.ofList d.symbols) u
  start : ∃ name, d.start? = some name ∧
    ∃ q : StateId, NameTable.find? (.ofList d.states) name = some q
  accepting : ∀ name ∈ d.accepting, ∃ q : StateId, NameTable.find? (.ofList d.states) name = some q

/-- The parts of the automaton are what the names of the definition denote. -/
structure Describes (d : Definition) (N : Nfa) : Prop where
  states_eq : N.states = .ofList d.states
  alphabet_eq : N.alphabet = .ofList d.symbols
  holds_iff : ∀ u, N.relation.Holds u ↔ ∃ t ∈ d.transitions, t.Denotes N.states N.alphabet u
  start : ∃ name, d.start? = some name ∧ N.states.find? name = some N.start
  mem_accepting : ∀ q, q ∈ N.accepting ↔ ∃ name ∈ d.accepting, N.states.find? name = some q

theorem checkNames_eq_ok_iff : d.checkNames = .ok () ↔
    d.states ≠ [] ∧ ∀ name, name ∈ d.states ∨ name ∈ d.symbols → isReserved name = false := by
  have hfirst : d.firstReserved? = none ↔
      ∀ name, name ∈ d.states ∨ name ∈ d.symbols → isReserved name = false := by
    simp only [firstReserved?, List.find?_eq_none, List.mem_append, List.mem_map,
      Bool.not_eq_true, or_imp, forall_and, forall_exists_index, and_imp,
      forall_apply_eq_imp_iff₂]
  unfold checkNames
  rw [← hfirst]
  cases hstates : d.states with
  | nil => simp
  | cons name names => cases hreserved : d.firstReserved? <;> simp

theorem resolveStart_eq_ok_iff {q : { q : StateId // states.Has q }} :
    resolveStart states d.start? = .ok q ↔
      ∃ name, d.start? = some name ∧ states.find? name = some q.1 := by
  simp only [resolveStart, bind_eq_ok_iff, foundOr_eq_ok_iff, NameTable.resolve_eq_some_iff]

theorem resolveAccepting_eq_ok_iff {name : String} {q : { q : StateId // states.Has q }} :
    resolveAccepting states name = .ok q ↔ states.find? name = some q.1 := by
  rw [resolveAccepting, foundOr_eq_ok_iff, NameTable.resolve_eq_some_iff]

/-- **A definition is built by resolving its names**, once they are found acceptable. -/
theorem build_eq_ok_iff : d.build = .ok N ↔ d.checkNames = .ok () ∧
    ∃ us, d.transitions.mapM (resolveTransition (.ofList d.states) (.ofList d.symbols)) = .ok us ∧
    ∃ q, resolveStart (.ofList d.states) d.start? = .ok q ∧
    ∃ qs, d.accepting.mapM (resolveAccepting (.ofList d.states)) = .ok qs ∧
      assemble (.ofList d.states) (.ofList d.symbols) us q qs = N := by
  simp only [build, bind_eq_ok_iff, pure, Except.pure, Except.ok.injEq]
  exact ⟨fun ⟨_, hnames, h⟩ => ⟨hnames, h⟩, fun ⟨hnames, h⟩ => ⟨(), hnames, h⟩⟩

theorem exists_build_iff : (∃ N, d.build = .ok N) ↔ d.Valid := by
  simp only [build_eq_ok_iff]
  constructor
  · rintro ⟨N, hnames, us, hus, q, hq, qs, hqs, -⟩
    obtain ⟨hstates, hreserved⟩ := checkNames_eq_ok_iff.1 hnames
    refine ⟨hstates, hreserved, fun t ht => ?_, ?_, fun name hname => ?_⟩
    · obtain ⟨u, hu⟩ := exists_mapM_eq_ok_iff.1 ⟨us, hus⟩ t ht
      exact ⟨u.1, resolveTransition_eq_ok_iff.1 hu⟩
    · obtain ⟨name, hstart, hname⟩ := resolveStart_eq_ok_iff.1 hq
      exact ⟨name, hstart, _, hname⟩
    · obtain ⟨p, hp⟩ := exists_mapM_eq_ok_iff.1 ⟨qs, hqs⟩ name hname
      exact ⟨p.1, resolveAccepting_eq_ok_iff.1 hp⟩
  · intro h
    obtain ⟨us, hus⟩ := exists_mapM_eq_ok_iff.2 fun t ht => by
      obtain ⟨u, hu⟩ := h.transitions t ht
      exact ⟨⟨u, hu.within⟩, resolveTransition_eq_ok_iff.2 hu⟩
    obtain ⟨qs, hqs⟩ := exists_mapM_eq_ok_iff.2 fun name hname => by
      obtain ⟨q, hq⟩ := h.accepting name hname
      exact ⟨⟨q, NameTable.has_of_find? hq⟩, resolveAccepting_eq_ok_iff.2 hq⟩
    obtain ⟨name, hstart, q, hq⟩ := h.start
    exact ⟨_, checkNames_eq_ok_iff.2 ⟨h.states_ne_nil, h.not_reserved⟩, us, hus,
      ⟨q, NameTable.has_of_find? hq⟩, resolveStart_eq_ok_iff.2 ⟨name, hstart, hq⟩, qs, hqs, rfl⟩

theorem describes_of_build (h : d.build = .ok N) : d.Describes N := by
  obtain ⟨-, us, hus, q, hq, qs, hqs, rfl⟩ := build_eq_ok_iff.1 h
  refine ⟨rfl, rfl, fun u => ?_, resolveStart_eq_ok_iff.1 hq, fun p => ?_⟩
  · refine (Relation.holds_ofList.trans List.mem_map).trans ?_
    simp only [mem_of_mapM_eq_ok hus, resolveTransition_eq_ok_iff]
    constructor
    · rintro ⟨u, ⟨t, ht, hu⟩, rfl⟩
      exact ⟨t, ht, hu⟩
    · rintro ⟨t, ht, hu⟩
      exact ⟨⟨u, hu.within⟩, ⟨t, ht, hu⟩, rfl⟩
  · refine (StateSet.mem_ofList.trans List.mem_map).trans ?_
    simp only [mem_of_mapM_eq_ok hqs, resolveAccepting_eq_ok_iff]
    constructor
    · rintro ⟨p, ⟨name, hname, hp⟩, rfl⟩
      exact ⟨name, hname, hp⟩
    · rintro ⟨name, hname, hp⟩
      exact ⟨⟨p, NameTable.has_of_find? hp⟩, ⟨name, hname, hp⟩, rfl⟩

/-! ## What a description says about named states -/

namespace Describes

variable {source target name : String} {q p : StateId} {l : Label}

theorem exists_denotes (h : d.Describes N) (hp : p ∈ N.successors q l) :
    ∃ t ∈ d.transitions, t.Denotes N.states N.alphabet ⟨q, l, p⟩ :=
  (h.holds_iff ⟨q, l, p⟩).1 hp

theorem mem_successors_iff (h : d.Describes N) (hq : N.states.find? source = some q)
    (hp : N.states.find? target = some p) : p ∈ N.successors q l ↔
      ∃ label, ⟨source, label, target⟩ ∈ d.transitions ∧ N.alphabet.label? label = some l := by
  refine (h.holds_iff ⟨q, l, p⟩).trans ?_
  constructor
  · rintro ⟨⟨source', label, target'⟩, ht, hsource, hlabel, htarget⟩
    obtain rfl : source' = source := NameTable.find?_inj hsource hq
    obtain rfl : target' = target := NameTable.find?_inj htarget hp
    exact ⟨label, ht, hlabel⟩
  · rintro ⟨label, ht, hlabel⟩
    exact ⟨_, ht, hq, hlabel, hp⟩

theorem mem_accepting_iff (h : d.Describes N) (hq : N.states.find? name = some q) :
    q ∈ N.accepting ↔ name ∈ d.accepting := by
  rw [h.mem_accepting]
  constructor
  · rintro ⟨name', hname', hq'⟩
    exact NameTable.find?_inj hq' hq ▸ hname'
  · exact fun hname => ⟨name, hname, hq⟩

theorem mem_states (h : d.Describes N) (hq : N.states.find? name = some q) : name ∈ d.states := by
  refine NameTable.mem_of_mem_names_ofList (s := .state) ?_
  rw [← h.states_eq]
  exact NameTable.mem_names_of_find? hq

end Describes

end Definition

end FiniteAutomata
