import FiniteAutomata.Proofs.ExactContents

/-!
# The first violation of a definition

What is asked of a definition is a list of checks in a fixed order, each with the error that reports
its violation (`Definition.checks`). A computation carries out some checks if it succeeds where they
all hold and otherwise gives the error of the first that does not (`CarriesOut`). Computations that
follow one another carry out their checks one after the other (`CarriesOut.bind`,
`carriesOut_mapM`). So `build` carries out all of them in their order (`carriesOut_build`), and
since a list of checks has one first violation at most (`FirstViolated.unique`), that settles for
every definition which error it gives.
-/

namespace FiniteAutomata

/-- Something that is asked of a definition, and the error that reports its violation. -/
structure Check where
  Holds : Prop
  error : DefinitionError

/-- The first of the checks that does not hold has this error. -/
inductive FirstViolated : List Check → DefinitionError → Prop
  | here {c : Check} {cs : List Check} : ¬ c.Holds → FirstViolated (c :: cs) c.error
  | later {c : Check} {cs : List Check} {e : DefinitionError} :
    c.Holds → FirstViolated cs e → FirstViolated (c :: cs) e

/-- The result is an error just if some check does not hold, and then that of the first one. -/
def CarriesOut {α : Type} (cs : List Check) : Except DefinitionError α → Prop
  | .ok _ => ∀ c ∈ cs, c.Holds
  | .error e => FirstViolated cs e

section

variable {α β : Type} {cs cs' : List Check} {e e' : DefinitionError}

/-! ## The first violation in a list of checks -/

theorem FirstViolated.append_left (h : FirstViolated cs e) : FirstViolated (cs ++ cs') e := by
  induction h with
  | here hc => exact .here hc
  | later hc _ ih => exact .later hc ih

theorem FirstViolated.append_right (hcs : ∀ c ∈ cs, c.Holds) (h : FirstViolated cs' e) :
    FirstViolated (cs ++ cs') e := by
  induction cs with
  | nil => exact h
  | cons c cs ih =>
    rw [List.forall_mem_cons] at hcs
    exact .later hcs.1 (ih hcs.2)

theorem FirstViolated.not_forall_holds (h : FirstViolated cs e) : ¬ ∀ c ∈ cs, c.Holds := by
  induction h with
  | here hc => exact fun hall => hc (hall _ List.mem_cons_self)
  | later _ _ ih => exact fun hall => ih fun c hc => hall c (List.mem_cons_of_mem _ hc)

theorem FirstViolated.unique (h : FirstViolated cs e) (h' : FirstViolated cs e') : e = e' := by
  induction h with
  | here hc =>
    cases h' with
    | here _ => rfl
    | later hc' _ => exact absurd hc' hc
  | later hc _ ih =>
    cases h' with
    | here hc' => exact absurd hc hc'
    | later _ h' => exact ih h'

/-! ## Computations that carry out checks -/

theorem CarriesOut.exists_ok_iff {x : Except DefinitionError α} (h : CarriesOut cs x) :
    (∃ a, x = .ok a) ↔ ∀ c ∈ cs, c.Holds := by
  cases x with
  | ok a => exact iff_of_true ⟨a, rfl⟩ h
  | error e => exact iff_of_false (fun ⟨_, ha⟩ => nomatch ha) h.not_forall_holds

theorem CarriesOut.eq_error_iff {x : Except DefinitionError α} (h : CarriesOut cs x) :
    x = .error e ↔ FirstViolated cs e := by
  cases x with
  | ok a => exact iff_of_false (fun ha => nomatch ha) fun hviolated => hviolated.not_forall_holds h
  | error e' =>
    rw [Except.error.injEq]
    constructor
    · rintro rfl
      exact h
    · exact fun hviolated => h.unique hviolated

theorem carriesOut_pure (a : α) : CarriesOut [] (pure a : Except DefinitionError α) := by
  intro c hc
  cases hc

theorem CarriesOut.bind {x : Except DefinitionError α} {f : α → Except DefinitionError β}
    (hx : CarriesOut cs x) (hf : ∀ a, x = .ok a → CarriesOut cs' (f a)) :
    CarriesOut (cs ++ cs') (x >>= f) := by
  cases x with
  | error e => exact FirstViolated.append_left hx
  | ok a =>
    show CarriesOut (cs ++ cs') (f a)
    have hfa := hf a rfl
    cases hy : f a with
    | error e =>
      rw [hy] at hfa
      exact FirstViolated.append_right hx hfa
    | ok b =>
      rw [hy] at hfa
      exact List.forall_mem_append.2 ⟨hx, hfa⟩

theorem carriesOut_mapM {f : α → Except DefinitionError β} {checks : α → List Check}
    (h : ∀ x, CarriesOut (checks x) (f x)) (xs : List α) :
    CarriesOut (xs.flatMap checks) (xs.mapM f) := by
  induction xs with
  | nil => exact carriesOut_pure []
  | cons x xs ih =>
    rw [List.mapM_cons, List.flatMap_cons, ← List.append_nil (xs.flatMap checks)]
    exact (h x).bind fun y _ => ih.bind fun ys _ => carriesOut_pure (y :: ys)

theorem carriesOut_foundOr {found : Option α} {P : Prop} (h : (∃ x, found = some x) ↔ P) :
    CarriesOut [⟨P, e⟩] (foundOr found e) := by
  cases found with
  | none => exact .here fun hP => nomatch h.2 hP
  | some x => exact List.forall_mem_singleton.2 (h.1 ⟨x, rfl⟩)

end

/-! ## The checks of a definition -/

/-- The name is none of the three that are reserved. -/
def Unreserved (name : String) : Prop := name ≠ "" ∧ name ≠ "ε" ∧ name ≠ "Trap"

theorem unreserved_iff {name : String} : Unreserved name ↔ isReserved name = false := by
  rw [← Bool.not_eq_true, isReserved_iff, not_or, not_or]
  rfl

namespace Definition

/-- The label is a spelling of epsilon or a declared symbol. -/
def DeclaresLabel (d : Definition) (label : String) : Prop :=
  label = "" ∨ label = "ε" ∨ label ∈ d.symbols

/-- What is asked of a transition. -/
def transitionChecks (d : Definition) (t : NamedTransition) : List Check :=
  [⟨t.source ∈ d.states, .unknownState t.source⟩,
    ⟨d.DeclaresLabel t.label, .unknownSymbol t.label⟩,
    ⟨t.target ∈ d.states, .unknownState t.target⟩]

/-- What is asked of the names, before they are looked up. -/
def nameChecks (d : Definition) : List Check :=
  ⟨d.states ≠ [], .noStates⟩
    :: (d.states.map (fun name => ⟨Unreserved name, .reservedIdentifier name .state⟩)
      ++ d.symbols.map fun name => ⟨Unreserved name, .reservedIdentifier name .symbol⟩)

/-- What is asked of the start state. -/
def startChecks (d : Definition) : List Check :=
  ⟨d.start? ≠ none, .missingStart⟩
    :: d.start?.toList.map fun name => ⟨name ∈ d.states, .invalidStart name⟩

/-- All that is asked of a definition, in this order. -/
def checks (d : Definition) : List Check :=
  d.nameChecks ++ (d.transitions.flatMap d.transitionChecks ++ (d.startChecks
    ++ d.accepting.map fun name => ⟨name ∈ d.states, .invalidAccepting name⟩))

/-- Names are declared once they are used, and none that is declared is reserved. -/
structure Acceptable (d : Definition) : Prop where
  states_ne_nil : d.states ≠ []
  unreserved_states : ∀ name ∈ d.states, Unreserved name
  unreserved_symbols : ∀ name ∈ d.symbols, Unreserved name
  transitions : ∀ t ∈ d.transitions,
    t.source ∈ d.states ∧ d.DeclaresLabel t.label ∧ t.target ∈ d.states
  start : ∃ name ∈ d.states, d.start? = some name
  accepting : ∀ name ∈ d.accepting, name ∈ d.states

variable {d : Definition} {name : String}

theorem forall_checks_iff : (∀ c ∈ d.checks, c.Holds) ↔ d.Acceptable := by
  have hstart : (∀ c ∈ d.startChecks, c.Holds) ↔ ∃ name ∈ d.states, d.start? = some name := by
    cases hname : d.start? <;> simp [startChecks, hname]
  simp only [checks, nameChecks, transitionChecks, List.forall_mem_append, List.forall_mem_cons,
    List.forall_mem_map, List.mem_flatMap, forall_exists_index, and_imp, hstart]
  constructor
  · rintro ⟨⟨hne, hstates, hsymbols⟩, htransitions, hstart, haccepting⟩
    refine ⟨hne, hstates, hsymbols, fun t ht => ?_, hstart, haccepting⟩
    have hchecks := fun c hc => htransitions c t ht hc
    simp only [List.forall_mem_cons] at hchecks
    exact ⟨hchecks.1, hchecks.2.1, hchecks.2.2.1⟩
  · rintro ⟨hne, hstates, hsymbols, htransitions, hstart, haccepting⟩
    refine ⟨⟨hne, hstates, hsymbols⟩, fun c t ht => ?_, hstart, haccepting⟩
    revert c
    obtain ⟨hsource, hlabel, htarget⟩ := htransitions t ht
    simp [hsource, hlabel, htarget]

/-! ## Names that are looked up -/

theorem mem_names_ofList {s : Space} {names : List String}
    (h : names.eraseDups.length ≤ Index.capacity) :
    name ∈ (NameTable.ofList names : NameTable s).names ↔ name ∈ names := by
  rw [NameTable.names_ofList_eq_eraseDups h, List.mem_eraseDups]

theorem exists_find?_iff {s : Space} {t : NameTable s} :
    (∃ i, t.find? name = some i) ↔ name ∈ t.names := by
  rw [← Option.ne_none_iff_exists', ne_eq, NameTable.find?_eq_none_iff, not_not]

theorem exists_resolve_iff {s : Space} {t : NameTable s} :
    (∃ i, t.resolve name = some i) ↔ name ∈ t.names := by
  rw [← exists_find?_iff]
  constructor
  · rintro ⟨i, hi⟩
    exact ⟨i, NameTable.resolve_eq_some_iff.1 hi⟩
  · rintro ⟨i, hi⟩
    exact ⟨⟨i, NameTable.has_of_find? hi⟩, NameTable.resolve_eq_some_iff.2 hi⟩

theorem exists_label?_iff {A : Alphabet} {text : String} :
    (∃ l, A.label? text = some l) ↔ text = "" ∨ text = "ε" ∨ text ∈ A.names := by
  rw [← or_assoc, ← exists_find?_iff, Alphabet.label?]
  split
  · rename_i hepsilon
    exact iff_of_true ⟨_, rfl⟩ (.inl (denotesEpsilon_iff.1 hepsilon))
  · rename_i hepsilon
    have hne : ¬ (text = "" ∨ text = "ε") := mt denotesEpsilon_iff.2 hepsilon
    simp only [hne, false_or, Option.map_eq_some_iff]
    constructor
    · rintro ⟨_, a, ha, rfl⟩
      exact ⟨a, ha⟩
    · rintro ⟨a, ha⟩
      exact ⟨_, a, ha, rfl⟩

theorem exists_resolveLabel_iff {A : Alphabet} {text : String} :
    (∃ l, A.resolveLabel text = some l) ↔ text = "" ∨ text = "ε" ∨ text ∈ A.names := by
  rw [← exists_label?_iff]
  constructor
  · rintro ⟨l, hl⟩
    exact ⟨l, Alphabet.resolveLabel_eq_some_iff.1 hl⟩
  · rintro ⟨l, hl⟩
    exact ⟨⟨l, Alphabet.hasLabel_of_label? hl⟩, Alphabet.resolveLabel_eq_some_iff.2 hl⟩

/-! ## Building carries out all checks -/

theorem carriesOut_find?_reserved (declared : List (String × NameKind)) :
    CarriesOut (declared.map fun x => ⟨Unreserved x.1, .reservedIdentifier x.1 x.2⟩)
      (match declared.find? fun x => isReserved x.1 with
        | some (name, kind) => .error (.reservedIdentifier name kind)
        | none => .ok ()) := by
  induction declared with
  | nil => exact carriesOut_pure ()
  | cons x declared ih =>
    rw [List.find?_cons, List.map_cons]
    cases hx : isReserved x.1 with
    | true => exact .here fun h => Bool.noConfusion (hx.symm.trans (unreserved_iff.1 h))
    | false =>
      -- the first name passes its check, so the others decide
      exact CarriesOut.bind (x := pure ()) (List.forall_mem_singleton.2 (unreserved_iff.2 hx))
        fun _ _ => ih

theorem carriesOut_checkNames (d : Definition) : CarriesOut d.nameChecks d.checkNames := by
  have hreserved := carriesOut_find?_reserved
    (d.states.map (·, NameKind.state) ++ d.symbols.map (·, NameKind.symbol))
  rw [List.map_append, List.map_map, List.map_map] at hreserved
  unfold checkNames nameChecks firstReserved?
  cases hstates : d.states with
  | nil => exact .here fun hne => hne rfl
  | cons name names =>
    rw [hstates] at hreserved
    exact CarriesOut.bind (x := pure ())
      (List.forall_mem_singleton.2 (List.cons_ne_nil name names)) fun _ _ => hreserved

section

variable (hfits : d.Fits)
include hfits

theorem carriesOut_resolve (name : String) (e : DefinitionError) :
    CarriesOut [⟨name ∈ d.states, e⟩]
      (foundOr (NameTable.resolve (.ofList d.states : NameTable .state) name) e) :=
  carriesOut_foundOr (exists_resolve_iff.trans (mem_names_ofList hfits.states))

theorem carriesOut_resolveLabel (text : String) (e : DefinitionError) :
    CarriesOut [⟨d.DeclaresLabel text, e⟩]
      (foundOr (Alphabet.resolveLabel (.ofList d.symbols) text) e) :=
  carriesOut_foundOr (exists_resolveLabel_iff.trans
    (or_congr_right (or_congr_right (mem_names_ofList hfits.symbols))))

theorem carriesOut_resolveTransition (t : NamedTransition) :
    CarriesOut (d.transitionChecks t)
      (resolveTransition (.ofList d.states) (.ofList d.symbols) t) :=
  (carriesOut_resolve hfits _ _).bind fun _ _ => (carriesOut_resolveLabel hfits _ _).bind
    fun _ _ => (carriesOut_resolve hfits _ _).bind fun _ _ => carriesOut_pure _

theorem carriesOut_resolveStart :
    CarriesOut d.startChecks (resolveStart (.ofList d.states) d.start?) := by
  have hset : CarriesOut [⟨d.start? ≠ none, .missingStart⟩] (foundOr d.start? .missingStart) :=
    carriesOut_foundOr Option.ne_none_iff_exists'.symm
  refine hset.bind fun name hname => ?_
  rw [foundOr_eq_ok_iff] at hname
  rw [hname]
  exact carriesOut_resolve hfits name _

theorem carriesOut_resolveAccepting (name : String) :
    CarriesOut [⟨name ∈ d.states, .invalidAccepting name⟩]
      (resolveAccepting (.ofList d.states) name) :=
  carriesOut_resolve hfits name _

/-- **A definition is checked in the order of its checks.** -/
theorem carriesOut_build : CarriesOut d.checks d.build := by
  have haccepting := carriesOut_mapM (carriesOut_resolveAccepting hfits) d.accepting
  rw [← List.map_eq_flatMap] at haccepting
  have hall := (carriesOut_checkNames d).bind fun _ _ =>
    (carriesOut_mapM (carriesOut_resolveTransition hfits) d.transitions).bind fun us _ =>
      (carriesOut_resolveStart hfits).bind fun q _ => haccepting.bind fun qs _ =>
        carriesOut_pure (assemble (.ofList d.states) (.ofList d.symbols) us q qs)
  rwa [List.append_nil] at hall

end

/-- **A definition is built if it is acceptable, and otherwise its first violation is reported**, in
the order of the checks. -/
theorem build_firstViolated (d : Definition) (hfits : d.Fits) :
    ((∃ N, d.build = .ok N) ↔ d.Acceptable) ∧
      ∀ e, d.build = .error e ↔ FirstViolated d.checks e := by
  have hbuild := carriesOut_build hfits
  exact ⟨hbuild.exists_ok_iff.trans forall_checks_iff, fun _ => hbuild.eq_error_iff⟩

/-- A transition with an undeclared label and an undeclared target, no start state, and an
undeclared accepting state. -/
def tangled : Definition where
  states := ["A"]
  symbols := ["a"]
  transitions := [⟨"A", "x", "Q"⟩]
  start? := none
  accepting := ["Z"]

/-- Of the four violations of `tangled`, that of the label is the first. -/
theorem build_firstViolated_tangled : tangled.Fits ∧ ¬ tangled.Acceptable ∧
    tangled.build = .error (.unknownSymbol "x") := by
  have hfits : tangled.Fits := ⟨by decide +kernel, by decide +kernel⟩
  have hA : Unreserved "A" := unreserved_iff.2 (by decide)
  have ha : Unreserved "a" := unreserved_iff.2 (by decide)
  have hviolated : FirstViolated tangled.checks (.unknownSymbol "x") :=
    .later (List.cons_ne_nil _ _) <| .later hA <| .later ha <| .later List.mem_cons_self <|
      .here (by simp [DeclaresLabel, tangled])
  obtain ⟨hok, herror⟩ := build_firstViolated tangled hfits
  refine ⟨hfits, fun hacceptable => ?_, (herror _).2 hviolated⟩
  obtain ⟨N, hN⟩ := hok.2 hacceptable
  cases hN.symm.trans ((herror _).2 hviolated)

end Definition

end FiniteAutomata
