import FiniteAutomata.Proofs.DeclaredParts
import FiniteAutomata.Proofs.WrittenForm

/-!
# Sets shown by their names

A list of names that have no commas can be told from its enumeration (`Text.enumerate_inj`). So in a
table without commas, ids are determined by the list of their names
(`NameTable.eq_of_enumerate_text_eq`), and a set of states that has any by the form in which it is
shown (`NameTable.eq_of_braced_text_eq`). The states and symbols of an automaton that is read have
only such names, since they stand between commas (`Nfa.commaFree_of_ofBytes`,
`Nfa.commaFree_alphabet_of_ofBytes`).
-/

namespace FiniteAutomata

/-! ## Enumerations -/

namespace Text

variable {xs ys : List String}

theorem enumerate_cons (x : String) (xs : List String) :
    enumerate (x :: xs) = ",".intercalate (x :: xs.map (" " ++ ·)) := by
  induction xs generalizing x with
  | nil => simp [enumerate]
  | cons y ys ih =>
    have hy : ",".intercalate ((" " ++ y) :: ys.map (" " ++ ·)) =
        " " ++ ",".intercalate (y :: ys.map (" " ++ ·)) := String.intercalate_cons_append
    have hcomma : ", " = "," ++ " " := by decide +kernel
    have hx : enumerate (x :: y :: ys) = x ++ ", " ++ enumerate (y :: ys) :=
      String.intercalate_cons_cons
    rw [hx, hcomma, List.map_cons, String.intercalate_cons_cons, hy, ← ih]
    simp only [String.append_assoc]

theorem splitAt_enumerate {x : String} (h : ∀ y ∈ x :: xs, ',' ∉ y.toList) :
    splitAt ',' (enumerate (x :: xs)) = x :: xs.map (" " ++ ·) := by
  rw [List.forall_mem_cons] at h
  refine splitAt_eq_iff.2 ⟨List.cons_ne_nil _ _, ?_, enumerate_cons x xs⟩
  refine List.forall_mem_cons.2 ⟨h.1, List.forall_mem_map.2 fun y hy => ?_⟩
  simpa using h.2 y hy

theorem enumerate_inj (hxs : ∀ x ∈ xs, ',' ∉ x.toList) (hys : ∀ y ∈ ys, ',' ∉ y.toList)
    (hne : xs ≠ []) (hne' : ys ≠ []) (h : enumerate xs = enumerate ys) : xs = ys := by
  obtain ⟨x, xs, rfl⟩ := List.exists_cons_of_ne_nil hne
  obtain ⟨y, ys, rfl⟩ := List.exists_cons_of_ne_nil hne'
  have hsplit := congrArg (splitAt ',') h
  rw [splitAt_enumerate hxs, splitAt_enumerate hys, List.cons.injEq] at hsplit
  rw [hsplit.1, List.map_injective_iff.2 (fun _ _ => (String.append_right_inj _).1) hsplit.2]

end Text

/-! ## Names without commas -/

namespace NameTable

variable {s : Space} {t : NameTable s}

/-- No name has a comma. -/
def CommaFree (t : NameTable s) : Prop := ∀ name ∈ t.names, ',' ∉ name.toList

theorem map_text_inj {is js : List (Index s)} (his : ∀ i ∈ is, t.Has i) (hjs : ∀ j ∈ js, t.Has j)
    (h : is.map t.text = js.map t.text) : is = js := by
  have hfind : ∀ ks : List (Index s), (∀ k ∈ ks, t.Has k) →
      (ks.map t.text).map t.find? = ks.map some := fun ks hks => by
    rw [List.map_map]
    exact List.map_congr_left fun k hk => find?_text (hks k hk)
  have hsome := congrArg (List.map t.find?) h
  rw [hfind is his, hfind js hjs] at hsome
  exact List.map_injective_iff.2 (fun _ _ => Option.some.inj) hsome

/-- Ids can be told from their names listed with commas. -/
theorem eq_of_enumerate_text_eq (ht : t.CommaFree) {is js : List (Index s)}
    (his : ∀ i ∈ is, t.Has i) (hjs : ∀ j ∈ js, t.Has j) (hne : is ≠ []) (hne' : js ≠ [])
    (h : Text.enumerate (is.map t.text) = Text.enumerate (js.map t.text)) : is = js := by
  have hcomma : ∀ ks : List (Index s), (∀ k ∈ ks, t.Has k) →
      ∀ name ∈ ks.map t.text, ',' ∉ name.toList := fun ks hks =>
    List.forall_mem_map.2 fun k hk => ht _ (text_mem_names (hks k hk))
  exact map_text_inj his hjs (Text.enumerate_inj (hcomma is his) (hcomma js hjs)
    (by simpa using hne) (by simpa using hne') h)

theorem eq_of_braced_text_eq {t : NameTable .state} (ht : t.CommaFree) {S T : StateSet}
    (hS : ∀ q ∈ S, t.Has q) (hT : ∀ q ∈ T, t.Has q) (hne : S.toList ≠ []) (hne' : T.toList ≠ [])
    (h : Text.braced (S.toList.map t.text) = Text.braced (T.toList.map t.text)) : S = T := by
  have henumerate :
      Text.enumerate (S.toList.map t.text) = Text.enumerate (T.toList.map t.text) := by
    simpa [Text.braced] using h
  exact StateSet.toList_inj (eq_of_enumerate_text_eq ht hS hT hne hne' henumerate)

end NameTable

/-! ## Automata that are read -/

theorem Definition.buildRead_eq_ok_iff {x : Except InputError Definition} {N : Nfa} :
    buildRead x = .ok N ↔ ∃ d, x = .ok d ∧ d.build = .ok N := by
  rw [buildRead, bind_eq_ok_iff]
  refine exists_congr fun d => and_congr_right fun _ => ?_
  cases d.build <;> simp [Except.mapError]

theorem NameTable.commaFree_ofList {s : Space} {names : List String}
    (h : Definition.WritableNames names) : (NameTable.ofList names : NameTable s).CommaFree :=
  fun name hname => (h.fields name (NameTable.mem_of_mem_names_ofList hname)).2

namespace Nfa

variable {bytes : List UInt8} {N : Nfa}

theorem exists_writable_of_ofBytes (h : Nfa.ofBytes bytes = .ok N) :
    ∃ d : Definition, d.Writable ∧ d.Describes N := by
  obtain ⟨d, hread, hbuild⟩ := Definition.buildRead_eq_ok_iff.1 h
  exact ⟨d, Definition.writable_of_ofBytes hread, Definition.describes_of_build hbuild⟩

theorem commaFree_of_ofBytes (h : Nfa.ofBytes bytes = .ok N) : N.states.CommaFree := by
  obtain ⟨d, hd, hN⟩ := exists_writable_of_ofBytes h
  exact hN.states_eq ▸ NameTable.commaFree_ofList hd.states

theorem commaFree_alphabet_of_ofBytes (h : Nfa.ofBytes bytes = .ok N) : N.alphabet.CommaFree := by
  obtain ⟨d, hd, hN⟩ := exists_writable_of_ofBytes h
  exact hN.alphabet_eq ▸ NameTable.commaFree_ofList hd.symbols

end Nfa

end FiniteAutomata
