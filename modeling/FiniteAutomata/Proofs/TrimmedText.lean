import Mathlib.Data.List.Basic
import FiniteAutomata.Text.Basic

/-!
# Trimmed texts

Trimming leaves no white space at either end (`tidy_trim`), so just the texts without any there
are left as they are (`trim_eq_self_iff`). What is left of a text is the only part of it that is so
and has nothing but white space around it (`trim_eq_iff`). Where there is none at the front,
trimming only takes something off the back (`trimChars_isPrefix`).
-/

namespace FiniteAutomata.Text

variable {cs ds : List Char} {c : Char} {text : String}

/-- There is no white space at either end. -/
structure Tidy (cs : List Char) : Prop where
  head : ∀ c ∈ cs.head?, isBlank c = false
  last : ∀ c ∈ cs.getLast?, isBlank c = false

theorem tidy_nil : Tidy [] := ⟨by simp, by simp⟩

/-- Tidy parts with a character between them that is no white space are tidy together. -/
theorem Tidy.append_cons (hcs : Tidy cs) (hc : isBlank c = false) (hds : Tidy ds) :
    Tidy (cs ++ c :: ds) := by
  constructor
  · intro d hd
    cases cs with
    | nil => exact Option.some.inj hd ▸ hc
    | cons x xs => exact hcs.head d hd
  · intro d hd
    rw [List.getLast?_append_of_ne_nil _ (List.cons_ne_nil c ds)] at hd
    cases ds with
    | nil => exact Option.some.inj hd ▸ hc
    | cons x xs => exact hds.last d (by rwa [List.getLast?_cons_cons] at hd)

/-! ## One end -/

theorem head_trimLeft (cs : List Char) : ∀ c ∈ (trimLeft cs).head?, isBlank c = false := by
  intro c hc
  have h := List.head?_dropWhile_not isBlank cs
  rw [← trimLeft, Option.mem_def.1 hc] at h
  simpa using h

theorem trimLeft_eq_self (h : ∀ c ∈ cs.head?, isBlank c = false) : trimLeft cs = cs := by
  cases cs with
  | nil => rfl
  | cons c cs => exact List.dropWhile_cons_of_neg (by simp [h c rfl])

theorem trimRight_eq_self (h : ∀ c ∈ cs.getLast?, isBlank c = false) : trimRight cs = cs := by
  rw [trimRight, trimLeft_eq_self (by rwa [List.head?_reverse]), List.reverse_reverse]

theorem trimLeft_isSuffix (cs : List Char) : trimLeft cs <:+ cs := List.dropWhile_suffix isBlank

theorem trimRight_isPrefix (cs : List Char) : trimRight cs <+: cs := by
  rw [← List.reverse_suffix, trimRight, List.reverse_reverse]
  exact trimLeft_isSuffix cs.reverse

/-! ## Both ends -/

theorem tidy_trimChars (cs : List Char) : Tidy (trimChars cs) := by
  constructor
  · intro c hc
    obtain ⟨back, hback⟩ := trimRight_isPrefix (trimLeft cs)
    refine head_trimLeft cs c ?_
    rw [← hback, List.head?_append, ← trimChars, Option.mem_def.1 hc]
    rfl
  · intro c hc
    rw [trimChars, trimRight, List.getLast?_reverse] at hc
    exact head_trimLeft _ c hc

theorem trimChars_eq_self_iff : trimChars cs = cs ↔ Tidy cs := by
  constructor
  · intro h
    exact h ▸ tidy_trimChars cs
  · intro h
    rw [trimChars, trimLeft_eq_self h.head, trimRight_eq_self h.last]

/-- Without white space at the front, trimming only takes something off the back. -/
theorem trimChars_isPrefix (h : ∀ c ∈ cs.head?, isBlank c = false) : trimChars cs <+: cs := by
  rw [trimChars, trimLeft_eq_self h]
  exact trimRight_isPrefix cs

theorem mem_of_mem_trimChars (h : c ∈ trimChars cs) : c ∈ cs :=
  (trimLeft_isSuffix cs).subset ((trimRight_isPrefix (trimLeft cs)).subset h)

/-! ## What trimming takes off -/

/-- The text is `trimmed` in some white space, and `trimmed` has none at its own ends. -/
structure TrimsTo (text trimmed : String) : Prop where
  tidy : Tidy trimmed.toList
  around : ∃ front back, text.toList = front ++ (trimmed.toList ++ back) ∧
    (∀ c ∈ front, isBlank c = true) ∧ ∀ c ∈ back, isBlank c = true

theorem exists_append_trimLeft (cs : List Char) :
    ∃ front, cs = front ++ trimLeft cs ∧ ∀ c ∈ front, isBlank c = true :=
  ⟨cs.takeWhile isBlank, List.takeWhile_append_dropWhile.symm,
    List.all_eq_true.1 List.all_takeWhile⟩

theorem exists_trimRight_append (cs : List Char) :
    ∃ back, cs = trimRight cs ++ back ∧ ∀ c ∈ back, isBlank c = true := by
  obtain ⟨front, heq, hfront⟩ := exists_append_trimLeft cs.reverse
  refine ⟨front.reverse, ?_, fun c hc => hfront c (List.mem_reverse.1 hc)⟩
  rw [trimRight, ← List.reverse_append, ← heq, List.reverse_reverse]

theorem trimLeft_append {front : List Char} (h : ∀ c ∈ front, isBlank c = true) :
    trimLeft (front ++ cs) = trimLeft cs :=
  List.dropWhile_append_of_pos h

theorem trimRight_append {back : List Char} (h : ∀ c ∈ back, isBlank c = true) :
    trimRight (cs ++ back) = trimRight cs := by
  rw [trimRight, List.reverse_append, trimLeft_append fun c hc => h c (List.mem_reverse.1 hc),
    trimRight]

theorem trimChars_append {front back : List Char} (hcs : Tidy cs)
    (hfront : ∀ c ∈ front, isBlank c = true) (hback : ∀ c ∈ back, isBlank c = true) :
    trimChars (front ++ (cs ++ back)) = cs := by
  rw [trimChars, trimLeft_append hfront]
  cases cs with
  | nil =>
    have hnil : trimLeft back = [] := by
      rw [← List.append_nil back, trimLeft_append hback]
      rfl
    rw [List.nil_append, hnil]
    rfl
  | cons c cs =>
    have hleft : trimLeft (c :: cs ++ back) = c :: cs ++ back := trimLeft_eq_self hcs.head
    rw [hleft, trimRight_append hback, trimRight_eq_self hcs.last]

theorem toList_trim : (trim text).toList = trimChars text.toList := String.toList_ofList

theorem trim_eq_self_iff : trim text = text ↔ Tidy text.toList := by
  rw [← String.toList_inj, toList_trim, trimChars_eq_self_iff]

theorem tidy_trim (text : String) : Tidy (trim text).toList := by
  rw [toList_trim]
  exact tidy_trimChars text.toList

theorem trim_eq_iff {trimmed : String} : trim text = trimmed ↔ TrimsTo text trimmed := by
  constructor
  · rintro rfl
    obtain ⟨front, hfront, hblank⟩ := exists_append_trimLeft text.toList
    obtain ⟨back, hback, hblank'⟩ := exists_trimRight_append (trimLeft text.toList)
    refine ⟨tidy_trim text, front, back, ?_, hblank, hblank'⟩
    rw [toList_trim, trimChars, ← hback, ← hfront]
  · rintro ⟨htidy, front, back, heq, hfront, hback⟩
    rw [← String.toList_inj, toList_trim, heq, trimChars_append htidy hfront hback]

theorem trim_trim (text : String) : trim (trim text) = trim text :=
  trim_eq_self_iff.2 (tidy_trim text)

theorem mem_of_mem_trim (h : c ∈ (trim text).toList) : c ∈ text.toList := by
  rw [toList_trim] at h
  exact mem_of_mem_trimChars h

end FiniteAutomata.Text
