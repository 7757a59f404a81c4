import FiniteAutomata.Proofs.OwnDescription

/-!
# Interned names

`AlphabetOps` is what alphabets are made with and what can be asked of them. After any names have
been added, an alphabet is to be a bijection between the names and the ids from 0 on, in the order
of first occurrences, that later names only extend (`AlphabetOps.StableBijection`). Tables of names
are (`Alphabet.stableBijection_ops`), and so is whatever is made in step with them
(`AlphabetOps.Simulates.stableBijection`).
-/

namespace FiniteAutomata

/-! ## Adding one name -/

namespace NameTable

variable {s : Space} {t u : NameTable s} {name other : String} {i : Index s}

theorem intern_of_find? (h : t.find? name = some i) : t.intern name = (t, i) := by
  rw [intern, h]

theorem intern_of_find?_eq_none (h : t.find? name = none) :
    t.intern name = (t.add name, .ofNat t.size) := by
  rw [intern, h]

theorem fst_intern (t : NameTable s) (name : String) : (t.intern name).1 = t.add name := by
  cases h : t.find? name with
  | none => rw [intern_of_find?_eq_none h]
  | some i => rw [intern_of_find? h, add_of_mem (mem_names_of_find? h)]

/-- A new name takes the next id, and the first one if all are taken. -/
theorem name?_add (h : name ∉ t.names) :
    (t.add name).name? i = if i = .ofNat t.size then some name else t.name? i := by
  by_cases hroom : t.size < Index.capacity
  · have hid : i = .ofNat t.size ↔ i.toNat = t.names.length := by
      rw [← Index.toNat_inj, Index.toNat_ofNat_of_lt hroom, size]
    by_cases hi : i.toNat = t.names.length
    · rw [if_pos (hid.2 hi), name?, names_add h hroom, hi, List.getElem?_concat_length]
    · rw [if_neg (mt hid.1 hi), name?, name?, names_add h hroom]
      rcases Nat.lt_or_gt_of_ne hi with hlt | hgt
      · exact List.getElem?_append_left hlt
      · have hlength : (t.names ++ [name]).length ≤ i.toNat := by
          rw [List.length_append]
          exact hgt
        rw [List.getElem?_eq_none hlength, List.getElem?_eq_none (Nat.le_of_lt hgt)]
  · have hfull : t.size = Index.capacity := Nat.le_antisymm t.length_le (Nat.not_lt.1 hroom)
    have hid : i = .ofNat t.size ↔ 0 = i.toNat := by
      rw [← Index.toNat_inj, Index.toNat_ofNat, hfull, Nat.mod_self, eq_comm]
    have hpos : 0 < t.names.length := by
      show 0 < t.size
      rw [hfull]
      decide
    simp only [name?, add, dif_neg h, dif_neg hroom, hid, List.getElem?_set, hpos, if_true]

/-- What is found after a name has been added is that name, or another that has not lost its id. -/
theorem find?_add_eq_some_iff (h : name ∉ t.names) : (t.add name).find? other = some i ↔
    other = name ∧ i = .ofNat t.size ∨
      t.find? other = some i ∧ other ≠ name ∧ i ≠ .ofNat t.size := by
  rw [find?_eq_some_iff, name?_add h, find?_eq_some_iff]
  have hne : ∀ j, t.name? j = some name → False := fun j hj =>
    h (mem_names_of_find? (find?_eq_some_iff.2 hj))
  split
  · rename_i hi
    simp [hi, eq_comm]
  · rename_i hi
    simp only [hi, and_false, false_or, ne_eq, not_false_eq_true, and_true]
    refine (and_iff_left_of_imp ?_).symm
    rintro hother rfl
    exact hne i hother

theorem find?_add_self (t : NameTable s) (name : String) :
    (t.add name).find? name = some (t.intern name).2 := by
  cases h : t.find? name with
  | none =>
    rw [intern_of_find?_eq_none h]
    exact (find?_add_eq_some_iff (find?_eq_none_iff.1 h)).2 (.inl ⟨rfl, rfl⟩)
  | some i => rw [intern_of_find? h, add_of_mem (mem_names_of_find? h), h]

/-- A table is determined by what is found in it. -/
theorem ext_find? (h : ∀ name, t.find? name = u.find? name) : t = u := by
  have hname : ∀ i, t.name? i = u.name? i := fun i => Option.ext fun name => by
    rw [← find?_eq_some_iff, ← find?_eq_some_iff, h]
  refine ext_names (List.ext_getElem? fun n => ?_)
  by_cases hn : n < Index.capacity
  · rw [← Index.toNat_ofNat_of_lt (s := s) hn]
    exact hname (.ofNat n)
  · rw [List.getElem?_eq_none (Nat.le_trans t.length_le (Nat.not_lt.1 hn)),
      List.getElem?_eq_none (Nat.le_trans u.length_le (Nat.not_lt.1 hn))]

end NameTable

/-! ## Alphabets -/

/-- What is asked of an alphabet: the symbol of a name and the name of a symbol, how many symbols
there are, which ones, and all their names. -/
structure AlphabetAnswers where
  find? : String → Option Symbol
  name : Symbol → Except AccessError String
  size : Nat
  symbols : List Symbol
  names : Except AccessError (List String)

/-- The answers are those of an alphabet that has just these names, each with its place as its
symbol. -/
structure AlphabetAnswers.Number (R : AlphabetAnswers) (names : List String) : Prop where
  names_eq : R.names = .ok names
  size_eq : R.size = names.length
  symbols_eq : R.symbols.map toString = (List.range R.size).map fun k => "s" ++ toString k
  name_iff : ∀ a name, R.name a = .ok name ↔ names[a.toNat]? = some name
  find?_iff : ∀ name a, R.find? name = some a ↔ R.name a = .ok name

theorem AlphabetAnswers.Number.exists_find? {R : AlphabetAnswers} {names : List String}
    {name : String} (h : R.Number names) (hlength : names.length ≤ Index.capacity)
    (hname : name ∈ names) : ∃ a, R.find? name = some a := by
  obtain ⟨n, hn⟩ := List.mem_iff_getElem?.1 hname
  have hlt : n < names.length := (List.getElem?_eq_some_iff.1 hn).1
  refine ⟨.ofNat n, (h.find?_iff _ _).2 ((h.name_iff _ _).2 ?_)⟩
  rwa [Index.toNat_ofNat_of_lt (Nat.lt_of_lt_of_le hlt hlength)]

/-- How alphabets are made, by adding names and asking for their symbols, how they are compared, and
what is asked of them. -/
structure AlphabetOps (α : Type) where
  empty : α
  add : α → String → α × Symbol
  equal : α → α → Bool
  answers : α → AlphabetAnswers

namespace AlphabetOps

variable {α β : Type}

/-- The alphabet after some names have been added. -/
def collect (O : AlphabetOps α) (names : List String) : α :=
  names.foldl (fun A name => (O.add A name).1) O.empty

theorem collect_append_singleton (O : AlphabetOps α) (names : List String) (name : String) :
    O.collect (names ++ [name]) = (O.add (O.collect names) name).1 := by
  rw [collect, List.foldl_append]
  rfl

/-- There are symbols for all of the names. -/
def Fits (names : List String) : Prop := names.eraseDups.length ≤ 2 ^ 32

theorem Fits.of_append {names more : List String} (h : Fits (names ++ more)) : Fits names := by
  refine Nat.le_trans ?_ h
  rw [List.eraseDups_append, List.length_append]
  exact Nat.le_add_right _ _

/-- Whatever names are added, an alphabet numbers them by their first occurrences; adding gives the
symbol of the name, and changes nothing if the name is there; names are kept; and alphabets are
equal exactly if they have the same names, as those collected from the names of one are. -/
structure StableBijection (O : AlphabetOps α) : Prop where
  number : ∀ names, Fits names → (O.answers (O.collect names)).Number names.eraseDups
  find?_add : ∀ names name, Fits (names ++ [name]) →
    (O.answers (O.add (O.collect names) name).1).find? name =
      some (O.add (O.collect names) name).2
  add_known : ∀ names name, Fits names → name ∈ names →
    (O.add (O.collect names) name).1 = O.collect names
  name_kept : ∀ names more a name, Fits (names ++ more) →
    (O.answers (O.collect names)).name a = .ok name →
    (O.answers (O.collect (names ++ more))).name a = .ok name
  collect_names : ∀ names, Fits names → ∃ collected,
    (O.answers (O.collect names)).names = .ok collected ∧
      O.equal (O.collect collected) (O.collect names) = true
  equal_iff : ∀ names names', Fits names → Fits names' →
    (O.equal (O.collect names) (O.collect names') = true ↔
      (O.answers (O.collect names)).names = (O.answers (O.collect names')).names)

/-! ## Alphabets in step -/

/-- Related alphabets stay related when a name is added, which gets the same symbol, and cannot be
told apart. -/
structure Simulates (R : α → β → Prop) (O : AlphabetOps α) (P : AlphabetOps β) : Prop where
  empty : R O.empty P.empty
  add : ∀ A B name, R A B →
    R (O.add A name).1 (P.add B name).1 ∧ (O.add A name).2 = (P.add B name).2
  equal : ∀ A B A' B', R A B → R A' B' → O.equal A A' = P.equal B B'
  answers : ∀ A B, R A B → O.answers A = P.answers B

namespace Simulates

variable {R : α → β → Prop} {O : AlphabetOps α} {P : AlphabetOps β}

/-- **Adding names keeps alphabets related.** -/
theorem collect (h : Simulates R O P) (names : List String) :
    R (O.collect names) (P.collect names) := by
  induction names using List.reverseRecOn with
  | nil => exact h.empty
  | append_singleton names name ih =>
    rw [collect_append_singleton, collect_append_singleton]
    exact (h.add _ _ name ih).1

theorem answers_collect (h : Simulates R O P) (names : List String) :
    P.answers (P.collect names) = O.answers (O.collect names) :=
  (h.answers _ _ (h.collect names)).symm

theorem equal_collect (h : Simulates R O P) (names names' : List String) :
    P.equal (P.collect names) (P.collect names') = O.equal (O.collect names) (O.collect names') :=
  (h.equal _ _ _ _ (h.collect names) (h.collect names')).symm

theorem stableBijection (h : Simulates R O P) (hO : O.StableBijection)
    (hknown : ∀ B name a, (P.answers B).find? name = some a → P.add B name = (B, a)) :
    P.StableBijection where
  number names hfits := by
    rw [h.answers_collect]
    exact hO.number names hfits
  find?_add names name hfits := by
    obtain ⟨hrelated, hsymbol⟩ := h.add _ _ name (h.collect names)
    rw [← h.answers _ _ hrelated, ← hsymbol]
    exact hO.find?_add names name hfits
  add_known names name hfits hname := by
    obtain ⟨a, ha⟩ := (hO.number names hfits).exists_find? hfits (List.mem_eraseDups.2 hname)
    rw [hknown _ name a (by rwa [h.answers_collect])]
  name_kept names more a name hfits hname := by
    rw [h.answers_collect] at hname ⊢
    exact hO.name_kept names more a name hfits hname
  collect_names names hfits := by
    obtain ⟨collected, hnames, hequal⟩ := hO.collect_names names hfits
    exact ⟨collected, (h.answers_collect names).symm ▸ hnames,
      (h.equal_collect collected names).trans hequal⟩
  equal_iff names names' hfits hfits' := by
    rw [h.equal_collect, h.answers_collect, h.answers_collect]
    exact hO.equal_iff names names' hfits hfits'

end Simulates

end AlphabetOps

/-! ## Alphabets as tables of names -/

namespace Alphabet

/-- Alphabets as they are. -/
def ops : AlphabetOps Alphabet where
  empty := ∅
  add A name := A.intern name
  equal A B := A == B
  answers A :=
    { find? := A.find?
      name := A.name
      size := A.size
      symbols := A.ids
      names := .ok A.names }

theorem collect_ops (names : List String) : ops.collect names = .ofList names := by
  have hstep : (fun (A : Alphabet) name => (ops.add A name).1) = NameTable.add :=
    funext₂ NameTable.fst_intern
  rw [AlphabetOps.collect, hstep]
  rfl

theorem names_collect_ops {names : List String} (h : AlphabetOps.Fits names) :
    (ops.collect names).names = names.eraseDups := by
  rw [collect_ops, NameTable.names_ofList_eq_eraseDups h]

theorem map_toString_ids (A : Alphabet) :
    A.ids.map toString = (List.range A.size).map fun k => "s" ++ toString k := by
  rw [NameTable.ids, List.map_map]
  refine List.map_congr_left fun k hk => ?_
  show "s" ++ toString (Index.ofNat k : Symbol).toNat = _
  rw [NameTable.toNat_ofNat_of_lt_size (List.mem_range.1 hk)]

theorem number_answers (A : Alphabet) : (ops.answers A).Number A.names where
  names_eq := rfl
  size_eq := rfl
  symbols_eq := A.map_toString_ids
  name_iff _ _ := name_eq_ok_iff.trans NameTable.find?_eq_some_iff
  find?_iff _ _ := name_eq_ok_iff.symm

/-- **Interning names in a table is a stable bijection.** -/
theorem stableBijection_ops : ops.StableBijection where
  number names hfits := names_collect_ops hfits ▸ number_answers (ops.collect names)
  find?_add names name _ := by
    show ((ops.collect names).intern name).1.find? name = some ((ops.collect names).intern name).2
    rw [NameTable.fst_intern, NameTable.find?_add_self]
  add_known names name hfits hname := by
    show ((ops.collect names).intern name).1 = ops.collect names
    rw [NameTable.fst_intern, NameTable.add_of_mem]
    rwa [names_collect_ops hfits, List.mem_eraseDups]
  name_kept names more a name hfits hname := by
    rw [(number_answers _).name_iff, names_collect_ops hfits.of_append] at hname
    rw [(number_answers _).name_iff, names_collect_ops hfits]
    exact getElem?_eraseDups_append more hname
  collect_names names _ := by
    refine ⟨(ops.collect names).names, rfl, ?_⟩
    rw [collect_ops (ops.collect names).names, NameTable.ofList_names]
    exact beq_self_eq_true _
  equal_iff names names' _ _ := by
    show (ops.collect names == ops.collect names') = true ↔
      Except.ok (ops.collect names).names = Except.ok (ops.collect names').names
    rw [beq_iff_eq, Except.ok.injEq]
    exact ⟨congrArg NameTable.names, NameTable.ext_names⟩

end Alphabet

end FiniteAutomata
