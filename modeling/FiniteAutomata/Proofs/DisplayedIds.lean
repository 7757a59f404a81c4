import Mathlib.Data.List.Nodup
import Std.Data.String.ToNat
import FiniteAutomata.Label
import FiniteAutomata.NameTable

/-!
# Displayed ids as names

Names that are told apart by their numbers make up a table in which each has the id at its own
number (`NameTable.find?_numbered`).

Ids are displayed differently from each other (`Index.toString_inj`) and from the reserved names
(`isReserved_toString`), so the displayed ids of a space can name the states or the symbols of an
automaton, under whichever ids it gives them. `NameTable.displayed s n` is the table of the first
`n` of them, and each has the id at its own position (`NameTable.find?_displayed`).
-/

namespace FiniteAutomata

namespace Index

variable {s t u : Space} {n : Nat}

/-- The id at the same position of another space. -/
def recast (i : Index s) : Index t := ⟨i.val⟩

@[simp] theorem toNat_recast (i : Index s) : (i.recast : Index t).toNat = i.toNat := rfl

@[simp] theorem recast_recast (i : Index s) :
    ((i.recast : Index t).recast : Index u) = i.recast := rfl

@[simp] theorem recast_self (i : Index s) : (i.recast : Index s) = i := rfl

theorem recast_inj {i j : Index s} : (i.recast : Index t) = j.recast ↔ i = j := by
  rw [← toNat_inj, ← toNat_inj, toNat_recast, toNat_recast]

/-- The ids at the first `n` positions. -/
def first (s : Space) (n : Nat) : List (Index s) := (List.range n).map ofNat

theorem mem_first (hn : n ≤ capacity) {i : Index s} : i ∈ first s n ↔ i.toNat < n := by
  rw [first, List.mem_map]
  constructor
  · rintro ⟨k, hk, rfl⟩
    rw [List.mem_range] at hk
    rwa [toNat_ofNat_of_lt (Nat.lt_of_lt_of_le hk hn)]
  · exact fun hi => ⟨i.toNat, List.mem_range.2 hi, ofNat_toNat i⟩

theorem toString_eq (i : Index s) : toString i = s.letter ++ i.toNat.repr := rfl

/-- Ids are told apart by how they are displayed. -/
theorem toString_inj {i j : Index s} : toString i = toString j ↔ i = j := by
  rw [toString_eq, toString_eq, String.append_right_inj, Nat.repr_inj, toNat_inj]

end Index

/-- The reserved names are told from others by their first characters. -/
theorem isReserved_of_head? {name : String} {c : Char} (h : name.toList.head? = some c)
    (hepsilon : c ≠ 'ε') (hsink : c ≠ 'T') : isReserved name = false := by
  rw [Bool.eq_false_iff, ne_eq, isReserved_iff]
  rintro (rfl | rfl | rfl)
  · simp at h
  · exact hepsilon (by simpa [epsilonName] using h.symm)
  · exact hsink (by simpa [sinkName] using h.symm)

theorem isReserved_toString {s : Space} (i : Index s) : isReserved (toString i) = false := by
  have hhead : (toString i).toList.head? = s.letter.toList.head? := by
    rw [Index.toString_eq, String.toList_append]
    cases s <;> simp [Space.letter]
  cases s <;> exact isReserved_of_head? hhead (by decide) (by decide)

namespace NameTable

variable {s t : Space} {n : Nat}

/-- Names that are all new are taken in order. -/
theorem names_foldl_add {table : NameTable s} {names : List String}
    (h : (table.names ++ names).Nodup) (hlen : (table.names ++ names).length ≤ Index.capacity) :
    (names.foldl add table).names = table.names ++ names := by
  induction names generalizing table with
  | nil => rw [List.foldl_nil, List.append_nil]
  | cons name names ih =>
    have hnew : name ∉ table.names := fun hmem =>
      (List.nodup_append.1 h).2.2 name hmem name List.mem_cons_self rfl
    have hsize : table.size < Index.capacity := by
      rw [List.length_append, List.length_cons] at hlen
      unfold size
      omega
    have hadd : table.names ++ name :: names = (table.add name).names ++ names := by
      rw [names_add hnew hsize, List.append_assoc, List.singleton_append]
    rw [List.foldl_cons, hadd, ih (hadd ▸ h) (hadd ▸ hlen)]

theorem names_ofList {names : List String} (h : names.Nodup)
    (hlen : names.length ≤ Index.capacity) : (ofList names : NameTable s).names = names :=
  @names_foldl_add s empty names h hlen

/-- A table is that of its own names. -/
theorem ofList_names (table : NameTable s) : ofList table.names = table :=
  ext_names (names_ofList table.nodup table.length_le)

/-- The table of the first `n` of some numbered names. -/
def numbered (f : Nat → String) (n : Nat) : NameTable s := ofList ((List.range n).map f)

section

variable {f : Nat → String} (hf : ∀ j < n, ∀ k < n, f j = f k → j = k) (hn : n ≤ Index.capacity)
include hf hn

theorem names_numbered : (numbered f n : NameTable s).names = (List.range n).map f := by
  refine names_ofList (List.Nodup.map_on (fun j hj k hk => ?_) List.nodup_range) ?_
  · exact hf j (List.mem_range.1 hj) k (List.mem_range.1 hk)
  · rwa [List.length_map, List.length_range]

theorem size_numbered : (numbered f n : NameTable s).size = n := by
  rw [size, names_numbered hf hn, List.length_map, List.length_range]

theorem has_numbered {i : Index s} : (numbered f n).Has i ↔ i.toNat < n := by
  rw [Has, size_numbered hf hn]

/-- Each name has the id at its own number. -/
theorem find?_numbered {name : String} {i : Index s} :
    (numbered f n).find? name = some i ↔ i.toNat < n ∧ f i.toNat = name := by
  rw [find?_eq_some_iff, name?, names_numbered hf hn, List.getElem?_map, Option.map_eq_some_iff]
  simp only [List.getElem?_eq_some_iff, List.length_range, List.getElem_range, exists_prop]
  constructor
  · rintro ⟨_, ⟨hi, rfl⟩, hname⟩
    exact ⟨hi, hname⟩
  · rintro ⟨hi, hname⟩
    exact ⟨_, ⟨hi, rfl⟩, hname⟩

end

/-- The table of the first displayed ids of a space. -/
def displayed (s : Space) (n : Nat) : NameTable t := ofList ((Index.first s n).map toString)

theorem displayed_eq (s : Space) (n : Nat) : (displayed s n : NameTable t) =
    numbered (fun k => toString (Index.ofNat k : Index s)) n := by
  rw [displayed, Index.first, List.map_map]
  rfl

section

variable (hn : n ≤ Index.capacity)
include hn

theorem toString_ofNat_inj {j k : Nat} (hj : j < n) (hk : k < n)
    (h : toString (Index.ofNat j : Index s) = toString (Index.ofNat k : Index s)) : j = k := by
  rwa [Index.toString_inj, ← Index.toNat_inj, Index.toNat_ofNat_of_lt (Nat.lt_of_lt_of_le hj hn),
    Index.toNat_ofNat_of_lt (Nat.lt_of_lt_of_le hk hn)] at h

theorem names_displayed :
    (displayed s n : NameTable t).names = (Index.first s n).map toString := by
  rw [displayed_eq, names_numbered (fun _ hj _ hk => toString_ofNat_inj hn hj hk) hn, Index.first,
    List.map_map]
  rfl

theorem size_displayed : (displayed s n : NameTable t).size = n := by
  rw [displayed_eq, size_numbered (fun _ hj _ hk => toString_ofNat_inj hn hj hk) hn]

theorem has_displayed {j : Index t} : (displayed s n).Has j ↔ j.toNat < n := by
  rw [Has, size_displayed hn]

/-- Each displayed id has its own position. -/
theorem find?_displayed {i : Index s} {j : Index t} :
    (displayed s n).find? (toString i) = some j ↔ i.toNat < n ∧ j = i.recast := by
  rw [displayed_eq, find?_numbered (fun _ hj _ hk => toString_ofNat_inj hn hj hk) hn,
    Index.toString_inj]
  constructor
  · rintro ⟨hj, rfl⟩
    have hnum : (Index.ofNat j.toNat : Index s) = j.recast := Index.ofNat_toNat j.recast
    rw [hnum]
    exact ⟨hj, rfl⟩
  · rintro ⟨hi, rfl⟩
    exact ⟨hi, Index.ofNat_toNat i⟩

theorem text_displayed {i : Index s} (hi : i.toNat < n) :
    (displayed s n : NameTable t).text i.recast = toString i :=
  text_of_find? ((find?_displayed hn).2 ⟨hi, rfl⟩)

theorem not_reserved_displayed {name : String} (h : name ∈ (displayed s n : NameTable t).names) :
    isReserved name = false := by
  rw [names_displayed hn] at h
  obtain ⟨i, -, rfl⟩ := List.mem_map.1 h
  exact isReserved_toString i

end

end NameTable

end FiniteAutomata
