import Std.Data.ExtTreeMap
import FiniteAutomata.Proofs.InternedNames

/-!
# Alphabets as two-way maps

The names and the symbols of an alphabet can also be kept as the pairs of a two-way map, in which
each name has one symbol and each symbol one name (`TwoWayMap`). A new name is inserted with the
number of pairs as its symbol. Inserting a pair evicts the pairs that have the name or the symbol of
it, without saying so, which is the case only when all symbols are taken.

All that is needed of such maps is that they are sets of pairs (`TwoWayMap.Lawful`). Then an
alphabet that is kept so has the pairs of the table that is made in step with it
(`TwoWayMap.Lawful.simulates`), so it interns names just as well (`Alphabet.interning_bijective`).
-/

namespace FiniteAutomata

/-- What is used of two-way maps between names and symbols. -/
structure TwoWayMap (β : Type) where
  empty : β
  /-- Adds a pair in place of those with the same name or the same symbol. -/
  insert : β → String → Symbol → β
  symbolOf : β → String → Option Symbol
  nameOf : β → Symbol → Option String
  len : β → Nat
  equal : β → β → Bool
  iter : β → List (String × Symbol)

namespace TwoWayMap

variable {β : Type} {M : TwoWayMap β} {b c : β} {A B : Alphabet} {name : String} {a : Symbol}

/-- Iteration goes through the pairs once each, and all else is as the pairs say. -/
structure Lawful (M : TwoWayMap β) : Prop where
  nodup : ∀ b, (M.iter b).Nodup
  symbolOf_iff : ∀ b name a, M.symbolOf b name = some a ↔ (name, a) ∈ M.iter b
  nameOf_iff : ∀ b a name, M.nameOf b a = some name ↔ (name, a) ∈ M.iter b
  len_eq : ∀ b, M.len b = (M.iter b).length
  equal_iff : ∀ b c, M.equal b c = true ↔ ∀ pair, pair ∈ M.iter b ↔ pair ∈ M.iter c
  not_mem_empty : ∀ pair, pair ∉ M.iter M.empty
  mem_insert : ∀ b name a pair, pair ∈ M.iter (M.insert b name a) ↔
    pair = (name, a) ∨ pair ∈ M.iter b ∧ pair.1 ≠ name ∧ pair.2 ≠ a

/-- Looks a name up and inserts it with the next symbol if it is new. -/
def add (M : TwoWayMap β) (b : β) (name : String) : β × Symbol :=
  match M.symbolOf b name with
  | some a => (b, a)
  | none =>
    let a := Index.ofNat (M.len b)
    (M.insert b name a, a)

/-- The symbols below the number of pairs. -/
def symbols (M : TwoWayMap β) (b : β) : List Symbol := (List.range (M.len b)).map .ofNat

/-- The name of a symbol that has one. -/
def nameAt (M : TwoWayMap β) (b : β) (a : Symbol) : Except AccessError String :=
  match M.nameOf b a with
  | some name => .ok name
  | none => .error (.foreignSymbol a)

/-- Alphabets that are kept as two-way maps. -/
def ops (M : TwoWayMap β) : AlphabetOps β where
  empty := M.empty
  add := M.add
  equal := M.equal
  answers b :=
    { find? := M.symbolOf b
      name := M.nameAt b
      size := M.len b
      symbols := M.symbols b
      names := (M.symbols b).mapM (M.nameAt b) }

/-! ## The pairs of a table -/

/-- The pairs are those of the names and symbols of the table. -/
def Keeps (M : TwoWayMap β) (A : Alphabet) (b : β) : Prop :=
  ∀ name a, (name, a) ∈ M.iter b ↔ A.find? name = some a

theorem add_of_symbolOf (h : M.symbolOf b name = some a) : M.add b name = (b, a) := by
  rw [add, h]

theorem add_of_symbolOf_eq_none (h : M.symbolOf b name = none) :
    M.add b name = (M.insert b name (.ofNat (M.len b)), .ofNat (M.len b)) := by
  rw [add, h]

namespace Lawful

variable (h : M.Lawful)
include h

theorem keeps_empty : M.Keeps ∅ M.empty := fun name a =>
  iff_of_false (h.not_mem_empty _) (by
    rw [NameTable.find?_eq_none_iff.2 (List.not_mem_nil : name ∉ (∅ : Alphabet).names)]
    exact (Option.some_ne_none a).symm)

section

variable (hb : M.Keeps A b)
include hb

theorem symbolOf_eq (name : String) : M.symbolOf b name = A.find? name :=
  Option.ext fun a => (h.symbolOf_iff b name a).trans (hb name a)

theorem nameOf_eq (a : Symbol) : M.nameOf b a = A.name? a :=
  Option.ext fun name =>
    (h.nameOf_iff b a name).trans ((hb name a).trans NameTable.find?_eq_some_iff)

theorem nameAt_eq : M.nameAt b = A.name := by
  funext a
  have hname := h.nameOf_eq hb a
  cases hfound : A.name? a with
  | some name => rw [nameAt, Alphabet.name, hname, hfound]
  | none => rw [nameAt, Alphabet.name, hname, hfound]

/-- There is one pair for each symbol. -/
theorem len_eq_size : M.len b = A.size := by
  have hnodup : ((M.iter b).map Prod.snd).Nodup := by
    refine (h.nodup b).map_on fun p hp q hq hpq => Prod.ext ?_ hpq
    have hq' : M.nameOf b p.2 = some q.1 := (h.nameOf_iff b p.2 q.1).2 (hpq ▸ hq)
    exact Option.some.inj (((h.nameOf_iff b p.2 p.1).2 hp).symm.trans hq')
  have hmem : ∀ a, a ∈ (M.iter b).map Prod.snd ↔ a ∈ A.ids := fun a => by
    rw [NameTable.mem_ids, List.mem_map]
    constructor
    · rintro ⟨⟨name, a⟩, hpair, rfl⟩
      exact NameTable.has_of_find? ((hb name a).1 hpair)
    · intro ha
      obtain ⟨name, hname⟩ := NameTable.exists_name?_of_has ha
      exact ⟨(name, a), (hb name a).2 (NameTable.find?_eq_some_iff.2 hname), rfl⟩
  have hids : A.ids.Nodup := A.pairwise_ids.imp fun hlt => fun heq => Nat.lt_irrefl _ (heq ▸ hlt)
  have hperm := (List.perm_ext_iff_of_nodup hnodup hids).2 hmem
  rw [h.len_eq, ← List.length_map (f := Prod.snd), hperm.length_eq, NameTable.length_ids]

theorem answers_eq : Alphabet.ops.answers A = M.ops.answers b := by
  have hsymbols : M.symbols b = A.ids := by
    rw [symbols, h.len_eq_size hb]
    rfl
  have hnames : A.ids.mapM A.name = .ok A.names := by
    rw [mapM_eq_ok_map fun a ha => Alphabet.name_eq (NameTable.mem_ids.1 ha), A.map_text_ids]
  show AlphabetAnswers.mk .. = AlphabetAnswers.mk ..
  rw [AlphabetAnswers.mk.injEq, hsymbols, h.nameAt_eq hb, h.len_eq_size hb, hnames]
  exact ⟨funext fun name => (h.symbolOf_eq hb name).symm, rfl, rfl, rfl, rfl⟩

theorem keeps_add (name : String) :
    M.Keeps (A.intern name).1 (M.add b name).1 ∧ (A.intern name).2 = (M.add b name).2 := by
  have hsymbol := h.symbolOf_eq hb name
  cases hfind : A.find? name with
  | some a =>
    rw [add_of_symbolOf (hsymbol.trans hfind), NameTable.intern_of_find? hfind]
    exact ⟨hb, rfl⟩
  | none =>
    rw [add_of_symbolOf_eq_none (hsymbol.trans hfind), NameTable.intern_of_find?_eq_none hfind,
      h.len_eq_size hb]
    refine ⟨fun other a => ?_, rfl⟩
    rw [h.mem_insert, NameTable.find?_add_eq_some_iff (NameTable.find?_eq_none_iff.1 hfind),
      Prod.mk.injEq, hb]

end

theorem equal_eq (hb : M.Keeps A b) (hc : M.Keeps B c) : (A == B) = M.equal b c := by
  rw [Bool.eq_iff_iff, beq_iff_eq, h.equal_iff]
  constructor
  · rintro rfl ⟨name, a⟩
    rw [hb, hc]
  · intro hpairs
    refine NameTable.ext_find? fun name => Option.ext fun a => ?_
    rw [← hb, ← hc, hpairs]

/-- **Two-way maps keep the pairs of the tables**, also when symbols are handed out again. -/
theorem simulates : AlphabetOps.Simulates M.Keeps Alphabet.ops M.ops where
  empty := h.keeps_empty
  add _ _ name hb := h.keeps_add hb name
  equal _ _ _ _ hb hc := h.equal_eq hb hc
  answers _ _ hb := h.answers_eq hb

theorem stableBijection : M.ops.StableBijection :=
  h.simulates.stableBijection Alphabet.stableBijection_ops fun _ _ _ => add_of_symbolOf

end Lawful

end TwoWayMap

/-- **Interning names in an alphabet is a stable bijection** between names and symbols, whatever
names come in whichever order, and also if the names are kept in a two-way map. -/
theorem Alphabet.interning_bijective : ops.StableBijection ∧
    ∀ (β : Type) (M : TwoWayMap β), M.Lawful → M.ops.StableBijection :=
  ⟨stableBijection_ops, fun _ _ h => h.stableBijection⟩

/-! ## Two-way maps as pairs of maps -/

section Inverse

variable {κ υ : Type} [Ord κ] [Std.TransOrd κ] [Std.LawfulEqOrd κ] [Ord υ] [Std.TransOrd υ]
  {m : Std.ExtTreeMap κ υ} {w : Std.ExtTreeMap υ κ}

/-- The map with `k` at `v` and nothing else there, given the key that is there now. -/
def insertAlone (m : Std.ExtTreeMap κ υ) (old : Option κ) (k : κ) (v : υ) : Std.ExtTreeMap κ υ :=
  match old with
  | some j => (m.erase j).insert k v
  | none => m.insert k v

theorem getElem?_insertAlone (h : ∀ (k : κ) (v : υ), m[k]? = some v ↔ w[v]? = some k)
    {k j : κ} {v u : υ} :
    (insertAlone m w[v]? k v)[j]? = some u ↔
      j = k ∧ u = v ∨ m[j]? = some u ∧ j ≠ k ∧ u ≠ v := by
  by_cases hjk : j = k
  · subst hjk
    have hget : (insertAlone m w[v]? j v)[j]? = some v := by
      unfold insertAlone
      split <;> rw [Std.ExtTreeMap.getElem?_insert_self]
    simp [hget, eq_comm]
  · have hget : ∀ old : Option κ, (insertAlone m old k v)[j]? = some u ↔
        m[j]? = some u ∧ old ≠ some j := by
      intro old
      have hkj : ¬ compare k j = .eq := fun heq => hjk (Std.LawfulEqOrd.eq_of_compare heq).symm
      cases old with
      | none => simp [insertAlone, Std.ExtTreeMap.getElem?_insert, hkj]
      | some i =>
        simp [insertAlone, Std.ExtTreeMap.getElem?_insert, Std.ExtTreeMap.getElem?_erase, hkj,
          and_comm]
    -- the key that is taken away is the one that has `v`
    rw [hget, ne_eq, ← h]
    simp only [hjk, false_and, false_or, ne_eq, not_false_eq_true, true_and]
    refine and_congr_right fun hu => not_congr ?_
    rw [hu, Option.some.injEq]

end Inverse

/-- A map from names to symbols and one from symbols to names that go together. -/
structure PairedMaps where
  symbols : Std.ExtTreeMap String Symbol
  names : Std.ExtTreeMap Symbol String
  inverse : ∀ (name : String) (a : Symbol), symbols[name]? = some a ↔ names[a]? = some name

namespace PairedMaps

/-- The maps without pairs. -/
def empty : PairedMaps := ⟨∅, ∅, by simp⟩

/-- The maps with one more pair, in place of those that it meets. -/
def insert (b : PairedMaps) (name : String) (a : Symbol) : PairedMaps where
  symbols := insertAlone b.symbols b.names[a]? name a
  names := insertAlone b.names b.symbols[name]? a name
  inverse other c := by
    rw [getElem?_insertAlone b.inverse, getElem?_insertAlone fun c n => (b.inverse n c).symm,
      b.inverse, and_comm (a := other = name), and_comm (a := other ≠ name)]

/-- Two-way maps as pairs of maps. -/
def twoWayMap : TwoWayMap PairedMaps where
  empty := empty
  insert := insert
  symbolOf b name := b.symbols[name]?
  nameOf b a := b.names[a]?
  len b := b.symbols.size
  equal b c := b.symbols.toList == c.symbols.toList
  iter b := b.symbols.toList

theorem mem_iter {b : PairedMaps} {name : String} {a : Symbol} :
    (name, a) ∈ twoWayMap.iter b ↔ b.symbols[name]? = some a :=
  Std.ExtTreeMap.mem_toList_iff_getElem?_eq_some

theorem lawful_twoWayMap : twoWayMap.Lawful where
  nodup b := Std.ExtTreeMap.distinct_keys_toList.imp fun hne heq => hne (by simp [heq])
  symbolOf_iff _ _ _ := mem_iter.symm
  nameOf_iff b a name := ((b.inverse name a).symm.trans mem_iter.symm)
  len_eq b := Std.ExtTreeMap.length_toList.symm
  equal_iff b c := by
    constructor
    · intro hequal pair
      show pair ∈ b.symbols.toList ↔ pair ∈ c.symbols.toList
      rw [eq_of_beq hequal]
    · intro hpairs
      have hsymbols : b.symbols = c.symbols := Std.ExtTreeMap.ext_getElem? fun name =>
        Option.ext fun a => mem_iter.symm.trans ((hpairs (name, a)).trans mem_iter)
      show (b.symbols.toList == c.symbols.toList) = true
      rw [hsymbols]
      exact beq_self_eq_true _
  not_mem_empty pair := by
    rw [mem_iter]
    simp [twoWayMap, empty]
  mem_insert b name a pair := by
    rw [mem_iter, mem_iter]
    show (insertAlone b.symbols b.names[a]? name a)[pair.1]? = some pair.2 ↔ _
    rw [getElem?_insertAlone b.inverse, Prod.ext_iff]

end PairedMaps

/-- Interning in a pair of maps, with a name that comes again. -/
theorem Alphabet.interning_bijective_pairedMaps :
    PairedMaps.twoWayMap.Lawful ∧ PairedMaps.twoWayMap.ops.StableBijection ∧
    (PairedMaps.twoWayMap.ops.answers
      (PairedMaps.twoWayMap.ops.collect ["b", "a", "b", "c"])).names = .ok ["b", "a", "c"] := by
  have hstable := interning_bijective.2 _ _ PairedMaps.lawful_twoWayMap
  have hfits : AlphabetOps.Fits ["b", "a", "b", "c"] := by
    show List.length _ ≤ _
    decide +kernel
  exact ⟨PairedMaps.lawful_twoWayMap, hstable, (hstable.number _ hfits).names_eq⟩

end FiniteAutomata
