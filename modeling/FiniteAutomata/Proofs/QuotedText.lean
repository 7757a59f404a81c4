import FiniteAutomata.Dot.Graph

/-!
# Quoted texts are read back

`escapeChars_cons`: the two passes that protect backslashes and quotes come to one pass over the
characters. So an escaped text is read to its end as the text itself, and reading goes on with
whatever follows (`scan_escapeChars`). No quote of the text ends the string; the quote that is put
behind it does (`scan_escapeChars_append`).

`escape_exact` puts this together for labels.
-/

namespace FiniteAutomata.Dot

theorem protect_append (c : Char) (cs ds : List Char) :
    protect c (cs ++ ds) = protect c cs ++ protect c ds :=
  List.flatMap_append

theorem escapeChars_cons (c : Char) (cs : List Char) :
    escapeChars (c :: cs) = (if c = '\\' ∨ c = '"' then ['\\', c] else [c]) ++ escapeChars cs := by
  have hfirst : protect '\\' (c :: cs) = (if c = '\\' then ['\\', c] else [c]) ++ protect '\\' cs :=
    List.flatMap_cons
  rw [escapeChars, hfirst, protect_append, ← escapeChars]
  congr 1
  by_cases hslash : c = '\\'
  · subst hslash
    rfl
  · by_cases hquote : c = '"' <;> simp [protect, hslash, hquote]

/-- Escaping is one pass from left to right. -/
theorem escapeChars_eq_flatMap (cs : List Char) :
    escapeChars cs = cs.flatMap fun c => if c = '\\' ∨ c = '"' then ['\\', c] else [c] := by
  induction cs with
  | nil => rfl
  | cons c cs ih => rw [escapeChars_cons, List.flatMap_cons, ih]

theorem scan_cons {c : Char} (hslash : c ≠ '\\') (hquote : c ≠ '"') (rest : List Char) :
    scan (c :: rest) = (scan rest).map fun (meaning, rest) => (c :: meaning, rest) := by
  rw [scan]
  · exact hquote
  · exact fun _ _ h => absurd h hslash
  · exact fun h => absurd h hslash

/-- Reading an escaped text gives the text and goes on behind it. -/
theorem scan_escapeChars (cs rest : List Char) : scan (escapeChars cs ++ rest) =
    (scan rest).map fun (meaning, rest) => (cs ++ meaning, rest) := by
  induction cs with
  | nil => exact (congrFun Option.map_id (scan rest)).symm
  | cons c cs ih =>
    have hstep : scan (escapeChars (c :: cs) ++ rest) =
        (scan (escapeChars cs ++ rest)).map fun (meaning, rest) => (c :: meaning, rest) := by
      rw [escapeChars_cons]
      split
      · -- the backslash takes the character after it
        rw [List.cons_append, List.singleton_append, List.cons_append, List.cons_append, scan]
      · rename_i hplain
        rw [not_or] at hplain
        rw [List.singleton_append, List.cons_append, scan_cons hplain.1 hplain.2]
    rw [hstep, ih, Option.map_map]
    rfl

theorem scan_escapeChars_append (cs rest : List Char) :
    scan (escapeChars cs ++ '"' :: rest) = some (cs, rest) := by
  have hquote : scan ('"' :: rest) = some ([], rest) := by rw [scan]
  rw [scan_escapeChars, hquote, Option.map_some]
  show some (cs ++ [], rest) = some (cs, rest)
  rw [List.append_nil]

theorem scan_escapeChars_self (cs : List Char) : scan (escapeChars cs) = none := by
  have hend := scan_escapeChars cs []
  rwa [List.append_nil, scan, Option.map_none] at hend

/-! ## Labels -/

theorem toList_escape (text : String) : (escape text).toList = escapeChars text.toList :=
  String.toList_ofList

theorem scan_escape_append (text rest : String) :
    scan (escape text ++ "\"" ++ rest).toList = some (text.toList, rest.toList) := by
  rw [String.toList_append, String.toList_append, toList_escape, List.append_assoc]
  exact scan_escapeChars_append text.toList rest.toList

theorem escape_injective : Function.Injective escape := by
  intro s t h
  have hscan := scan_escape_append s ""
  rw [h, scan_escape_append, Option.some.injEq, Prod.mk.injEq] at hscan
  exact String.toList_inj.1 hscan.1.symm

/-- **A label cannot break out of its quotes.** An escaped text followed by a quote is read to
exactly that quote, and means the text; none of its own quotes ends it. So is the label of a node or
an edge. Different texts are escaped differently, in what comes to a single pass that puts a
backslash before each backslash and each quote. -/
theorem escape_exact :
    (∀ text rest : String,
      scan (escape text ++ "\"" ++ rest).toList = some (text.toList, rest.toList)) ∧
    (∀ text : String, scan (escape text).toList = none) ∧
    (∀ text rest : String, ∃ value : String,
      (Attribute.label text).render ++ rest = "label=\"" ++ value ∧
        scan value.toList = some (text.toList, rest.toList)) ∧
    Function.Injective escape ∧
    ∀ text : String, (escape text).toList =
      text.toList.flatMap fun c => if c = '\\' ∨ c = '"' then ['\\', c] else [c] := by
  refine ⟨scan_escape_append, fun text => ?_, fun text rest => ?_, escape_injective, fun text => ?_⟩
  · rw [toList_escape, scan_escapeChars_self]
  · refine ⟨escape text ++ "\"" ++ rest, ?_, scan_escape_append text rest⟩
    simp only [Attribute.render, quoted, ← String.append_assoc]
    rfl
  · rw [toList_escape, escapeChars_eq_flatMap]

end FiniteAutomata.Dot
