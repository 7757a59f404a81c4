import FiniteAutomata.Index

/-!
# Tables of names

A `NameTable` gives each of its names the id of the place at which it was first added. Names and
ids determine each other: `find?_eq_some_iff` says that a name is found at an id exactly when the
id has that name. Adding a known name changes nothing (`add_of_mem`), and adding a new one extends
the list of names (`names_add`), so ids handed out keep their names.

Ids have 32 bits. A table that has used all of them is full: the next id wraps around to the first
one, and a newcomer takes the first place.

Whatever hands out ids does so at the first occurrence of a value and knows the value when it comes
again. The values in the order of their first occurrences are `List.eraseDups` of all of them.
-/

namespace FiniteAutomata

/-! ## First occurrences -/

section FirstOccurrences

variable {α : Type} [BEq α] [LawfulBEq α] {xs : List α} {x : α}

theorem eraseDups_append_singleton (xs : List α) (x : α) :
    (xs ++ [x]).eraseDups = xs.eraseDups ++ if x ∈ xs then [] else [x] := by
  rw [List.eraseDups_append, List.removeAll]
  by_cases h : x ∈ xs <;> simp [h, List.eraseDups_cons]

theorem eraseDups_append_of_mem (h : x ∈ xs) : (xs ++ [x]).eraseDups = xs.eraseDups := by
  rw [eraseDups_append_singleton, if_pos h, List.append_nil]

theorem eraseDups_append_of_not_mem (h : x ∉ xs) :
    (xs ++ [x]).eraseDups = xs.eraseDups ++ [x] := by
  rw [eraseDups_append_singleton, if_neg h]

/-- A value keeps its place, whatever comes later. -/
theorem getElem?_eraseDups_append (ys : List α) {n : Nat} (h : xs.eraseDups[n]? = some x) :
    (xs ++ ys).eraseDups[n]? = some x := by
  rw [List.eraseDups_append,
    List.getElem?_append_left (List.getElem?_eq_some_iff.1 h).1, h]

end FirstOccurrences

/-! ## Tables -/

/-- Distinct names in the order of their ids. -/
structure NameTable (s : Space) where
  names : List String
  nodup : names.Nodup
  length_le : names.length ≤ Index.capacity
deriving DecidableEq

namespace NameTable

variable {s : Space}

/-- The number of names. -/
def size (t : NameTable s) : Nat := t.names.length

/-- Whether there are no names. -/
def isEmpty (t : NameTable s) : Bool := t.names.isEmpty

/-- Whether the id stands for a name of the table. -/
def Has (t : NameTable s) (i : Index s) : Prop := i.toNat < t.size

instance (t : NameTable s) (i : Index s) : Decidable (t.Has i) :=
  inferInstanceAs (Decidable (i.toNat < t.size))

/-- The id of a name. -/
def find? (t : NameTable s) (name : String) : Option (Index s) :=
  (t.names.idxOf? name).map Index.ofNat

/-- The name of an id. -/
def name? (t : NameTable s) (i : Index s) : Option String := t.names[i.toNat]?

/-- The name of an id, and the empty text for an id the table does not have. -/
def text (t : NameTable s) (i : Index s) : String := (t.name? i).getD ""

/-- The ids of all names, in order. -/
def ids (t : NameTable s) : List (Index s) := (List.range t.size).map Index.ofNat

/-- The table without names. -/
def empty : NameTable s := ⟨[], .nil, Nat.zero_le _⟩

instance : EmptyCollection (NameTable s) := ⟨empty⟩

instance : Inhabited (NameTable s) := ⟨empty⟩

theorem nodup_set_of_not_mem {l : List String} {name : String} {n : Nat} (hl : l.Nodup)
    (h : name ∉ l) : (l.set n name).Nodup := by
  induction l generalizing n with
  | nil => exact .nil
  | cons x xs ih =>
    rw [List.nodup_cons] at hl
    rw [List.mem_cons, not_or] at h
    cases n with
    | zero => exact List.nodup_cons.2 ⟨h.2, hl.2⟩
    | succ n =>
      refine List.nodup_cons.2 ⟨fun hx => ?_, ih hl.2 h.2⟩
      rcases List.mem_or_eq_of_mem_set hx with hx | rfl
      · exact hl.1 hx
      · exact h.1 rfl

/-- The table with `name` added, unless it is there already. -/
def add (t : NameTable s) (name : String) : NameTable s :=
  if h : name ∈ t.names then t
  else if hs : t.size < Index.capacity then
    ⟨t.names ++ [name],
      List.nodup_append.2 ⟨t.nodup, List.nodup_cons.2 ⟨List.not_mem_nil, .nil⟩,
        fun x hx y hy hxy => h (List.mem_singleton.1 hy ▸ hxy ▸ hx)⟩,
      by rw [List.length_append]; exact hs⟩
  else
    ⟨t.names.set 0 name, nodup_set_of_not_mem t.nodup h, by rw [List.length_set]; exact t.length_le⟩

/-- The table with `name` added, and the id of the name: the one it has, or else the next one. -/
def intern (t : NameTable s) (name : String) : NameTable s × Index s :=
  match t.find? name with
  | some i => (t, i)
  | none => (t.add name, .ofNat t.size)

/-- The table of the given names, each at the place of its first occurrence. -/
def ofList (names : List String) : NameTable s := names.foldl add empty

theorem ext_names {t u : NameTable s} (h : t.names = u.names) : t = u := by
  cases t; cases u
  subst h
  rfl

theorem add_of_mem {t : NameTable s} {name : String} (h : name ∈ t.names) : t.add name = t :=
  dif_pos h

theorem names_add {t : NameTable s} {name : String} (h : name ∉ t.names)
    (hs : t.size < Index.capacity) : (t.add name).names = t.names ++ [name] := by
  rw [add, dif_neg h, dif_pos hs]

theorem name?_eq_some_iff {t : NameTable s} {i : Index s} {name : String} :
    t.name? i = some name ↔ ∃ h : i.toNat < t.names.length, t.names[i.toNat] = name :=
  List.getElem?_eq_some_iff

theorem exists_name?_of_has {t : NameTable s} {i : Index s} (h : t.Has i) :
    ∃ name, t.name? i = some name :=
  ⟨_, List.getElem?_eq_getElem h⟩

/-- A name is found at an id exactly when the id has that name. -/
theorem find?_eq_some_iff {t : NameTable s} {i : Index s} {name : String} :
    t.find? name = some i ↔ t.name? i = some name := by
  rw [find?, Option.map_eq_some_iff, name?_eq_some_iff]
  constructor
  · rintro ⟨n, hn, hi⟩
    obtain ⟨hlt, hname, -⟩ := List.idxOf?_eq_some_iff.1 hn
    obtain rfl : i.toNat = n := by
      rw [← hi, Index.toNat_ofNat_of_lt (Nat.lt_of_lt_of_le hlt t.length_le)]
    exact ⟨hlt, hname⟩
  · rintro ⟨hlt, hname⟩
    refine ⟨i.toNat, List.idxOf?_eq_some_iff.2 ⟨hlt, hname, fun j hj hjn => ?_⟩,
      Index.ofNat_toNat i⟩
    have := (List.getElem?_inj hlt t.nodup).1
      ((List.getElem?_eq_getElem hlt).trans
        (by rw [hname, ← hjn, List.getElem?_eq_getElem (Nat.lt_trans hj hlt)]))
    exact absurd this.symm (Nat.ne_of_lt hj)

theorem has_of_find? {t : NameTable s} {i : Index s} {name : String} (h : t.find? name = some i) :
    t.Has i :=
  (name?_eq_some_iff.1 (find?_eq_some_iff.1 h)).1

theorem text_of_find? {t : NameTable s} {i : Index s} {name : String} (h : t.find? name = some i) :
    t.text i = name := by
  rw [text, find?_eq_some_iff.1 h, Option.getD_some]

theorem find?_eq_none_iff {t : NameTable s} {name : String} :
    t.find? name = none ↔ name ∉ t.names := by
  simp [find?]

/-! ## The list of ids -/

@[simp] theorem length_ids (t : NameTable s) : t.ids.length = t.size := by simp [ids]

theorem toNat_ofNat_of_lt_size {t : NameTable s} {n : Nat} (h : n < t.size) :
    (Index.ofNat n : Index s).toNat = n :=
  Index.toNat_ofNat_of_lt (Nat.lt_of_lt_of_le h t.length_le)

theorem getElem?_ids {t : NameTable s} {n : Nat} (h : n < t.size) :
    t.ids[n]? = some (Index.ofNat n) := by
  simp [ids, h]

@[simp] theorem mem_ids {t : NameTable s} {i : Index s} : i ∈ t.ids ↔ t.Has i := by
  rw [ids, List.mem_map]
  constructor
  · rintro ⟨n, hn, rfl⟩
    rw [List.mem_range] at hn
    rwa [Has, toNat_ofNat_of_lt_size hn]
  · intro hi
    exact ⟨i.toNat, List.mem_range.2 hi, Index.ofNat_toNat i⟩

/-- An id comes after as many others as its position says. -/
theorem length_eq_toNat {t : NameTable s} {is js : List (Index s)} {i : Index s}
    (h : is ++ i :: js = t.ids) : is.length = i.toNat := by
  have hlt : is.length < t.size := by
    rw [← length_ids, ← h, List.length_append, List.length_cons]
    omega
  have hget := getElem?_ids hlt
  rw [← h, List.getElem?_append_right (Nat.le_refl _), Nat.sub_self,
    List.getElem?_cons_zero] at hget
  rw [Option.some.inj hget, toNat_ofNat_of_lt_size hlt]

theorem pairwise_ids (t : NameTable s) : t.ids.Pairwise (· < ·) := by
  refine List.pairwise_map.2 (List.pairwise_lt_range.imp_of_mem fun hm hn hmn => ?_)
  rw [Index.lt_iff, toNat_ofNat_of_lt_size (List.mem_range.1 hm),
    toNat_ofNat_of_lt_size (List.mem_range.1 hn)]
  exact hmn

end NameTable

end FiniteAutomata
