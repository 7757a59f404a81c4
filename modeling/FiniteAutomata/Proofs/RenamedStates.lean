import FiniteAutomata.Proofs.BuiltAutomata
import FiniteAutomata.Proofs.IsomorphicAutomata

/-!
# Renamed and added states

`d.Renames f e`: up to the order of the declarations and to further states, the definition `e` is
`d` with its states renamed by `f`. If the start leads to none of the further states, the automata
built from `d` and `e` are isomorphic (`Renames.iso`): every accessible state has a name, and
corresponds to the state of the new name. Hence neither the names of the states, nor the order in
which they are declared, nor states out of reach make a difference to the determinized automaton
(`Nfa.determinize_iso`).
-/

namespace FiniteAutomata

namespace Definition

/-- The states of `d` have new names in `e`, with the same transitions among them. -/
structure Renames (d : Definition) (f : String → String) (e : Definition) : Prop where
  injOn : Set.InjOn f {name | name ∈ d.states}
  symbols_eq : e.symbols = d.symbols
  start?_eq : e.start? = d.start?.map f
  transitions_iff : ∀ source ∈ d.states, ∀ label, ∀ target ∈ d.states,
    (⟨f source, label, f target⟩ ∈ e.transitions ↔ ⟨source, label, target⟩ ∈ d.transitions)
  accepting_iff : ∀ name ∈ d.states, (f name ∈ e.accepting ↔ name ∈ d.accepting)

/-- The state of `M` that has the new name of a state of `N`. -/
def renamed (f : String → String) (N M : Nfa) (q : StateId) : StateId :=
  (M.states.find? (f (N.states.text q))).getD q

variable {d e : Definition} {f : String → String} {N M : Nfa} {name : String} {q p : StateId}

theorem renamed_eq (hq : N.states.find? name = some q) (hp : M.states.find? (f name) = some p) :
    renamed f N M q = p := by
  rw [renamed, NameTable.text_of_find? hq, hp, Option.getD_some]

namespace Renames

variable (h : d.Renames f e) (hN : d.build = .ok N) (hM : e.build = .ok M)
include h hN hM

theorem alphabet_eq : N.alphabet = M.alphabet := by
  rw [(describes_of_build hN).alphabet_eq, (describes_of_build hM).alphabet_eq, h.symbols_eq]

theorem exists_start : ∃ name, N.states.find? name = some N.start ∧
    M.states.find? (f name) = some M.start := by
  obtain ⟨name, hstart, hname⟩ := (describes_of_build hN).start
  obtain ⟨name', hstart', hname'⟩ := (describes_of_build hM).start
  rw [h.start?_eq, hstart, Option.map_some, Option.some.injEq] at hstart'
  exact ⟨name, hname, hstart' ▸ hname'⟩

/-- Each accessible state has a name, and so has the state that it is renamed to. -/
theorem exists_name (hq : N.Accessible q) : ∃ name, N.states.find? name = some q ∧
    M.states.find? (f name) = some (renamed f N M q) := by
  have hfound : ∃ name p, N.states.find? name = some q ∧ M.states.find? (f name) = some p := by
    cases hq with
    | start =>
      obtain ⟨name, hname, hname'⟩ := h.exists_start hN hM
      exact ⟨name, M.start, hname, hname'⟩
    | step _ hmove =>
      have hdescribes := describes_of_build hN
      -- the state is the target of a transition of `d`, which is one of `e` under the new names
      obtain ⟨t, ht, ht'⟩ := hdescribes.exists_denotes hmove
      obtain ⟨u, hu⟩ := (exists_build_iff.1 ⟨M, hM⟩).transitions _
        ((h.transitions_iff _ (hdescribes.mem_states ht'.source) _ _
          (hdescribes.mem_states ht'.target)).2 ht)
      exact ⟨t.target, u.target, ht'.target, (describes_of_build hM).states_eq ▸ hu.target⟩
  obtain ⟨name, p, hname, hp⟩ := hfound
  exact ⟨name, hname, renamed_eq hname hp ▸ hp⟩

theorem successors_iff {l : Label} (hq : N.Accessible q) (hp : N.Accessible p) :
    p ∈ N.successors q l ↔ renamed f N M p ∈ M.successors (renamed f N M q) l := by
  have hd := describes_of_build hN
  obtain ⟨source, hsource, hsource'⟩ := h.exists_name hN hM hq
  obtain ⟨target, htarget, htarget'⟩ := h.exists_name hN hM hp
  rw [hd.mem_successors_iff hsource htarget,
    (describes_of_build hM).mem_successors_iff hsource' htarget', h.alphabet_eq hN hM]
  simp only [h.transitions_iff source (hd.mem_states hsource) _ target (hd.mem_states htarget)]

theorem start_eq : renamed f N M N.start = M.start := by
  obtain ⟨name, hname, hname'⟩ := h.exists_start hN hM
  exact renamed_eq hname hname'

theorem accessible (hq : N.Accessible q) : M.Accessible (renamed f N M q) := by
  induction hq with
  | start => exact h.start_eq hN hM ▸ .start
  | step hq hmove ih => exact ih.step ((h.successors_iff hN hM hq (hq.step hmove)).1 hmove)

theorem injOn_renamed : Set.InjOn (renamed f N M) {q | N.Accessible q} := by
  intro q hq p hp heq
  have hd := describes_of_build hN
  obtain ⟨name, hname, hname'⟩ := h.exists_name hN hM hq
  obtain ⟨other, hother, hother'⟩ := h.exists_name hN hM hp
  obtain rfl : name = other := h.injOn (hd.mem_states hname) (hd.mem_states hother)
    (NameTable.find?_inj hname' (heq ▸ hother'))
  exact Option.some.inj (hname.symm.trans hother)

/-- If the start leads to renamed states only, all of them come from accessible ones. -/
theorem surjOn_renamed
    (hadded : ∀ p, M.Accessible p → ∃ name ∈ d.states, M.states.find? (f name) = some p) :
    Set.SurjOn (renamed f N M) {q | N.Accessible q} {p | M.Accessible p} := by
  intro p hp
  induction hp with
  | start => exact ⟨N.start, .start, h.start_eq hN hM⟩
  | @step _ p l hq hmove ih =>
    obtain ⟨q, hq', rfl⟩ := ih
    have hd := describes_of_build hN
    obtain ⟨source, hsource, hsource'⟩ := h.exists_name hN hM hq'
    obtain ⟨target, htarget, htarget'⟩ := hadded p (hq.step hmove)
    obtain ⟨label, ht, hlabel⟩ :=
      ((describes_of_build hM).mem_successors_iff hsource' htarget').1 hmove
    rw [h.transitions_iff source (hd.mem_states hsource) label target htarget] at ht
    obtain ⟨u, hu⟩ := (exists_build_iff.1 ⟨N, hN⟩).transitions _ ht
    rw [← hd.states_eq, ← hd.alphabet_eq] at hu
    have hu' : u.target ∈ N.successors q l := by
      rw [hd.mem_successors_iff hsource hu.target]
      exact ⟨label, ht, h.alphabet_eq hN hM ▸ hlabel⟩
    exact ⟨u.target, Nfa.Accessible.step hq' hu', renamed_eq hu.target htarget'⟩

/-- The start leads to renamed states only if no transition leads from these to added ones. -/
theorem exists_name_of_closed
    (hclosed : ∀ t ∈ e.transitions, t.source ∈ d.states.map f → t.target ∈ d.states.map f)
    (hp : M.Accessible p) : ∃ name ∈ d.states, M.states.find? (f name) = some p := by
  induction hp with
  | start =>
    obtain ⟨name, hname, hname'⟩ := h.exists_start hN hM
    exact ⟨name, (describes_of_build hN).mem_states hname, hname'⟩
  | step _ hmove ih =>
    obtain ⟨source, hsource, hq⟩ := ih
    obtain ⟨t, ht, ht'⟩ := (describes_of_build hM).exists_denotes hmove
    have hmem : t.source ∈ d.states.map f :=
      NameTable.find?_inj hq ht'.source ▸ List.mem_map_of_mem hsource
    obtain ⟨target, htarget, heq⟩ := List.mem_map.1 (hclosed t ht hmem)
    exact ⟨target, htarget, heq ▸ ht'.target⟩

/-- **Renaming states is an isomorphism** of what the start leads to. -/
theorem iso (hadded : ∀ p, M.Accessible p → ∃ name ∈ d.states, M.states.find? (f name) = some p) :
    N.Iso M (renamed f N M) where
  bijOn := ⟨fun _ hq => h.accessible hN hM hq, h.injOn_renamed hN hM,
    h.surjOn_renamed hN hM hadded⟩
  start := h.start_eq hN hM
  successors_iff _ _ _ hq hp := h.successors_iff hN hM hq hp
  accepting_iff q hq := by
    have hd := describes_of_build hN
    obtain ⟨name, hname, hname'⟩ := h.exists_name hN hM hq
    rw [hd.mem_accepting_iff hname, (describes_of_build hM).mem_accepting_iff hname',
      h.accepting_iff name (hd.mem_states hname)]

end Renames

end Definition

/-- **The determinized automaton does not depend on how the states are declared.** Isomorphic
automata have the same tables, over the images of the sets; in particular, the tables stay when
states are renamed, declared in another order, or added where the start does not lead. -/
theorem Nfa.determinize_iso (N M : Nfa) (hsymbols : N.alphabet.size = M.alphabet.size)
    (hcap : N.determinize.size ≤ Index.capacity) :
    (∀ h, N.Iso M h → N.determinize.SameTables M.determinize ∧
      M.determinize.states = N.determinize.states.map (·.image h)) ∧
    ∀ (d e : Definition) f, d.build = .ok N → e.build = .ok M → d.Renames f e →
      (∀ p, M.Accessible p → ∃ name ∈ d.states, M.states.find? (f name) = some p) →
      N.determinize.SameTables M.determinize := by
  refine ⟨fun h hiso => ⟨hiso.sameTables hsymbols hcap, hiso.states_eq hsymbols⟩, ?_⟩
  intro d e f hN hM hrenames hadded
  exact (hrenames.iso hN hM hadded).sameTables hsymbols hcap

/-- The states of `readsA` under other names and in another order, with one more that is not
reached. -/
def Definition.readsARenamed : Definition where
  states := ["3", "J", "2", "1"]
  symbols := ["a"]
  transitions := [⟨"J", "a", "1"⟩, ⟨"2", "a", "3"⟩, ⟨"1", "ε", "2"⟩]
  start? := some "1"
  accepting := ["J", "3"]

theorem Nfa.determinize_iso_readsA : ∃ M, Definition.readsARenamed.build = .ok M ∧
    readsA.determinize.SameTables M.determinize ∧ ∃ h, readsA.Iso M h ∧
      M.determinize.states = readsA.determinize.states.map (·.image h) := by
  obtain ⟨M, hM⟩ : ∃ M, Definition.readsARenamed.build = .ok M := ⟨_, rfl⟩
  let f (name : String) : String := if name = "A" then "1" else if name = "B" then "2" else "3"
  have hrenames : Definition.readsA.Renames f Definition.readsARenamed := by
    refine ⟨?_, rfl, rfl, ?_, by decide⟩
    · have hinj : ∀ a ∈ Definition.readsA.states, ∀ b ∈ Definition.readsA.states,
          f a = f b → a = b := by decide
      intro a ha b hb
      exact hinj a ha b hb
    · intro source hs label target ht
      simp only [Definition.readsA, List.mem_cons, List.not_mem_nil, or_false] at hs ht
      rcases hs with rfl | rfl | rfl <;> rcases ht with rfl | rfl | rfl <;>
        simp [f, Definition.readsA, Definition.readsARenamed]
  have hsize : readsA.alphabet.size = M.alphabet.size := by
    rw [hrenames.alphabet_eq Definition.build_readsA hM]
  have hcap : readsA.determinize.size ≤ Index.capacity := size_determinize_le_capacity (by decide)
  have hadded : ∀ p, M.Accessible p →
      ∃ name ∈ Definition.readsA.states, M.states.find? (f name) = some p := by
    intro p hp
    exact hrenames.exists_name_of_closed Definition.build_readsA hM (by decide) hp
  have hiso := hrenames.iso Definition.build_readsA hM hadded
  obtain ⟨himages, htables⟩ := determinize_iso readsA M hsize hcap
  exact ⟨M, hM, htables _ _ f Definition.build_readsA hM hrenames hadded, _, hiso,
    (himages _ hiso).2⟩

end FiniteAutomata
