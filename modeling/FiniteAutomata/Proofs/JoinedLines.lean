import Mathlib.Data.List.Basic
import FiniteAutomata.Text.Basic

/-!
# Texts put together from their pieces

Cutting a text is the inverse of putting it together. The pieces between commas are the only ones
without a comma that give the text when they are joined (`splitAt_eq_iff`), and the lines are the
only ones without a line feed that give the text when each is ended by one, the last one perhaps
excepted (`lines_eq_iff`).

Bytes are cut before they are decoded, which makes no difference for a text: its bytes have the
lines of the text (`linesOfBytes_encode`), since no character but the line feed has the byte 10 in
its encoding. Bytes that end in a line feed keep their lines whatever comes after them
(`linesOfBytes_append`).
-/

namespace FiniteAutomata.Text

/-! ## Pieces between separators -/

/-- A list up to the first element with a property, that element, and the rest are determined by the
whole. -/
theorem append_stop_inj {α : Type} {p : α → Prop} {as bs xs ys : List α} {c d : α}
    (has : ∀ a ∈ as, ¬ p a) (hbs : ∀ b ∈ bs, ¬ p b) (hc : p c) (hd : p d)
    (h : as ++ c :: xs = bs ++ d :: ys) : as = bs ∧ c = d ∧ xs = ys := by
  induction as generalizing bs with
  | nil =>
    cases bs with
    | nil => simpa using h
    | cons b bs =>
      rw [List.nil_append, List.cons_append, List.cons.injEq] at h
      exact absurd (h.1 ▸ hc) (hbs b List.mem_cons_self)
  | cons a as ih =>
    cases bs with
    | nil =>
      rw [List.nil_append, List.cons_append, List.cons.injEq] at h
      exact absurd (h.1 ▸ hd) (has a List.mem_cons_self)
    | cons b bs =>
      rw [List.cons_append, List.cons_append, List.cons.injEq] at h
      rw [List.forall_mem_cons] at has hbs
      obtain ⟨rfl, hcd, hxy⟩ := ih has.2 hbs.2 h.2
      exact ⟨by rw [h.1], hcd, hxy⟩

section

variable {α : Type} [BEq α] [LawfulBEq α] {separator : α} {xs ys piece last : List α}
  {pieces : List (List α)}

theorem not_mem_of_mem_splitOn (h : piece ∈ xs.splitOn separator) : separator ∉ piece := by
  induction xs generalizing piece with
  | nil =>
    rw [List.splitOn_nil, List.mem_singleton] at h
    exact h ▸ List.not_mem_nil
  | cons x xs ih =>
    rw [List.splitOn_cons_eq_if_modifyHead] at h
    obtain ⟨first, rest, hsplit⟩ := List.exists_cons_of_ne_nil (List.splitOn_ne_nil separator xs)
    rw [hsplit] at h ih
    split at h
    · rcases List.mem_cons.1 h with rfl | h
      · exact List.not_mem_nil
      · exact ih h
    · rename_i hx
      rcases List.mem_cons.1 h with rfl | h
      · rw [List.mem_cons, not_or]
        exact ⟨fun heq => hx (beq_iff_eq.2 heq.symm), ih List.mem_cons_self⟩
      · exact ih (List.mem_cons_of_mem _ h)

theorem splitOn_eq_iff : xs.splitOn separator = pieces ↔
    pieces ≠ [] ∧ (∀ piece ∈ pieces, separator ∉ piece) ∧ xs = [separator].intercalate pieces := by
  constructor
  · rintro rfl
    exact ⟨List.splitOn_ne_nil _ _, fun _ => not_mem_of_mem_splitOn,
      (List.intercalate_splitOn separator).symm⟩
  · rintro ⟨hne, hsep, rfl⟩
    exact List.splitOn_intercalate separator hsep hne

theorem splitOn_flatMap_append (h : ∀ piece ∈ pieces, separator ∉ piece) :
    (pieces.flatMap (· ++ [separator]) ++ ys).splitOn separator =
      pieces ++ ys.splitOn separator := by
  induction pieces with
  | nil => rfl
  | cons piece pieces ih =>
    rw [List.forall_mem_cons] at h
    rw [List.flatMap_cons, List.append_assoc, List.append_assoc, List.singleton_append,
      List.splitOn_append_cons_self_of_not_mem h.1, ih h.2, List.cons_append]

/-- Whole pieces at the front are kept, whatever comes after them. -/
theorem terminated_append (h : ∀ piece ∈ pieces, separator ∉ piece) :
    terminated separator (pieces.flatMap (· ++ [separator]) ++ ys) =
      pieces ++ terminated separator ys := by
  have hne := List.splitOn_ne_nil separator ys
  simp only [terminated, splitOn_flatMap_append h, List.getLast?_append_of_ne_nil _ hne,
    List.dropLast_append_of_ne_nil hne]
  split <;> rfl

theorem terminated_nil : terminated separator [] = [] := by
  simp [terminated]

theorem terminated_flatMap (h : ∀ piece ∈ pieces, separator ∉ piece) :
    terminated separator (pieces.flatMap (· ++ [separator])) = pieces := by
  rw [← List.append_nil (pieces.flatMap _), terminated_append h, terminated_nil, List.append_nil]

theorem terminated_eq_singleton (h : separator ∉ last) (hne : last ≠ []) :
    terminated separator last = [last] := by
  simp [terminated, List.splitOn_eq_singleton h, hne]

omit [BEq α] [LawfulBEq α] in
variable (separator xs) in
theorem exists_eq_flatMap_append : ∃ (pieces : List (List α)) (last : List α),
    (∀ piece ∈ pieces, separator ∉ piece) ∧ separator ∉ last ∧
      xs = pieces.flatMap (· ++ [separator]) ++ last := by
  induction xs with
  | nil => exact ⟨[], [], by simp, by simp, rfl⟩
  | cons x xs ih =>
    obtain ⟨pieces, last, hpieces, hlast, rfl⟩ := ih
    by_cases hx : x = separator
    · exact ⟨[] :: pieces, last, by simpa using hpieces, hlast, by simp [hx]⟩
    · cases pieces with
      | nil => exact ⟨[], x :: last, by simp, by simp [Ne.symm hx, hlast], rfl⟩
      | cons piece pieces =>
        rw [List.forall_mem_cons] at hpieces
        exact ⟨(x :: piece) :: pieces, last, by simpa [Ne.symm hx] using hpieces, hlast, rfl⟩

theorem terminated_flatMap_append (h : ∀ piece ∈ pieces, separator ∉ piece)
    (hlast : separator ∉ last) :
    terminated separator (pieces.flatMap (· ++ [separator]) ++ last) =
      pieces ++ if last = [] then [] else [last] := by
  rw [terminated_append h]
  split
  · rename_i hne
    rw [hne, terminated_nil]
  · rename_i hne
    rw [terminated_eq_singleton hlast hne]

/-- The pieces with the separator after each of them are `xs`, or would be if it ended with one
more separator. -/
structure Terminated (separator : α) (xs : List α) (pieces : List (List α)) : Prop where
  not_mem : ∀ piece ∈ pieces, separator ∉ piece
  eq : xs = pieces.flatMap (· ++ [separator]) ∨
    xs ++ [separator] = pieces.flatMap (· ++ [separator]) ∧ pieces.getLast? ≠ some []

theorem terminated_eq_iff :
    terminated separator xs = pieces ↔ Terminated separator xs pieces := by
  constructor
  · rintro rfl
    obtain ⟨pieces, last, hpieces, hlast, rfl⟩ := exists_eq_flatMap_append separator xs
    rw [terminated_flatMap_append hpieces hlast]
    split
    · rename_i hnil
      rw [hnil, List.append_nil, List.append_nil]
      exact ⟨hpieces, .inl rfl⟩
    · rename_i hne
      refine ⟨fun piece hpiece => ?_, .inr ⟨by simp, by simpa using hne⟩⟩
      rcases List.mem_append.1 hpiece with hpiece | hpiece
      · exact hpieces piece hpiece
      · exact List.mem_singleton.1 hpiece ▸ hlast
  · rintro ⟨hpieces, rfl | ⟨heq, hne⟩⟩
    · exact terminated_flatMap hpieces
    · rcases List.eq_nil_or_concat' pieces with rfl | ⟨pieces, last, rfl⟩
      · simp at heq
      · rw [List.forall_mem_append, List.forall_mem_singleton] at hpieces
        obtain rfl : xs = pieces.flatMap (· ++ [separator]) ++ last := by
          simpa [← List.append_assoc] using heq
        rw [terminated_flatMap_append hpieces.1 hpieces.2, if_neg (by simpa using hne)]

end

/-! ## Pieces and lines of a text -/

variable {separator : Char} {text : String} {pieces : List String}

theorem map_ofList_eq_iff {css : List (List Char)} :
    css.map String.ofList = pieces ↔ css = pieces.map String.toList := by
  constructor
  · rintro rfl
    simp [Function.comp_def]
  · rintro rfl
    simp [Function.comp_def]

/-- The pieces of a text are those that give the text when they are joined. -/
theorem splitAt_eq_iff : splitAt separator text = pieces ↔
    pieces ≠ [] ∧ (∀ piece ∈ pieces, separator ∉ piece.toList) ∧
      text = (String.singleton separator).intercalate pieces := by
  rw [splitAt, map_ofList_eq_iff, splitOn_eq_iff, List.forall_mem_map, ← String.toList_inj,
    String.toList_intercalate, String.toList_singleton, ne_eq, ne_eq, List.map_eq_nil_iff]

/-- The text is the lines one after the other, each ended by a line feed, except that the last line,
if it is not empty, may lack its own. -/
structure IsLines (text : String) (lines : List String) : Prop where
  not_mem : ∀ line ∈ lines, '\n' ∉ line.toList
  eq : text = String.join (lines.map (· ++ "\n")) ∨
    text ++ "\n" = String.join (lines.map (· ++ "\n")) ∧ lines.getLast? ≠ some ""

theorem toList_join_lines {lines : List String} :
    (String.join (lines.map (· ++ "\n"))).toList =
      (lines.map String.toList).flatMap (· ++ ['\n']) := by
  simp [List.flatMap_map]

theorem lines_eq_iff {lines : List String} : Text.lines text = lines ↔ IsLines text lines := by
  have hlast : (lines.map String.toList).getLast? ≠ some [] ↔ lines.getLast? ≠ some "" := by
    rw [List.getLast?_map]
    cases lines.getLast? <;> simp
  rw [Text.lines, map_ofList_eq_iff, terminated_eq_iff]
  constructor
  · rintro ⟨hmem, heq⟩
    refine ⟨by simpa using hmem, ?_⟩
    rw [← String.toList_inj, ← String.toList_inj, toList_join_lines, String.toList_append, ← hlast]
    exact heq
  · rintro ⟨hmem, heq⟩
    refine ⟨by simpa using hmem, ?_⟩
    rw [← String.toList_inj, ← String.toList_inj, toList_join_lines, String.toList_append,
      ← hlast] at heq
    exact heq

/-! ## Bytes of a text -/

/-- The bytes of some characters in UTF-8. -/
def encodeChars (cs : List Char) : List UInt8 := cs.flatMap String.utf8EncodeChar

/-- The bytes of a text in UTF-8. -/
def encode (text : String) : List UInt8 := encodeChars text.toList

theorem toByteArray_eq_iff {bytes : List UInt8} :
    (⟨bytes.toArray⟩ : ByteArray) = text.toByteArray ↔ bytes = encode text := by
  have htext : text.toByteArray = ⟨(encode text).toArray⟩ := by
    conv_lhs => rw [← @String.ofList_toList text, String.toByteArray_ofList, List.utf8Encode]
    exact ByteArray.ext (by simp [encode, encodeChars])
  rw [htext, ByteArray.mk.injEq]
  exact ⟨List.toArray_inj, congrArg List.toArray⟩

/-- Decoding is the inverse of encoding. -/
theorem decode?_eq_some_iff {bytes : List UInt8} :
    decode? bytes = some text ↔ bytes = encode text := by
  rw [← toByteArray_eq_iff, decode?, String.fromUTF8?]
  split
  · rw [Option.some.injEq, ← String.toByteArray_inj]
    rfl
  · rename_i hinvalid
    constructor
    · intro hnone
      cases hnone
    · intro heq
      exact absurd (heq ▸ text.isValidUTF8) hinvalid

theorem decode?_eq_none_iff {bytes : List UInt8} :
    decode? bytes = none ↔ ∀ text, bytes ≠ encode text := by
  rw [Option.eq_none_iff_forall_ne_some]
  exact forall_congr' fun text => not_congr decode?_eq_some_iff

theorem decode?_encodeChars (cs : List Char) : decode? (encodeChars cs) = some (.ofList cs) :=
  decode?_eq_some_iff.2 (by rw [encode, String.toList_ofList])

theorem encodeChars_append (cs ds : List Char) :
    encodeChars (cs ++ ds) = encodeChars cs ++ encodeChars ds :=
  List.flatMap_append

theorem encode_append (text more : String) :
    encode (text ++ more) = encode text ++ encode more := by
  rw [encode, String.toList_append, encodeChars_append]
  rfl

theorem encodeChars_eq_nil_iff {cs : List Char} : encodeChars cs = [] ↔ cs = [] := by
  cases cs <;> simp [encodeChars, List.flatMap_cons]

/-- No character but the line feed has the byte of one in its encoding. -/
theorem eq_of_feed_mem_utf8EncodeChar {c : Char} (h : 10 ∈ String.utf8EncodeChar c) : c = '\n' := by
  have hc : c.val.toNat = 10 := by
    revert h
    fun_cases String.utf8EncodeChar c <;>
      simp only [List.mem_cons, List.not_mem_nil, or_false, ← UInt8.toNat_inj,
        UInt8.toNat_ofNat', UInt8.reduceToNat] <;> omega
  exact Char.ext (UInt32.toNat_inj.1 hc)

theorem feed_not_mem_encodeChars {cs : List Char} (h : '\n' ∉ cs) : 10 ∉ encodeChars cs := by
  intro hmem
  obtain ⟨c, hc, hfeed⟩ := List.mem_flatMap.1 hmem
  exact h (eq_of_feed_mem_utf8EncodeChar hfeed ▸ hc)

theorem feed_mem_encode (h : '\n' ∈ text.toList) : 10 ∈ encode text :=
  List.mem_flatMap.2 ⟨'\n', h, by decide⟩

/-- A line that is a text has no line feed. -/
theorem feed_not_mem_of_mem_linesOfBytes {bytes : List UInt8} {line : String}
    (h : some line ∈ linesOfBytes bytes) : '\n' ∉ line.toList := by
  obtain ⟨piece, hpiece, hline⟩ := List.mem_map.1 h
  rw [decode?_eq_some_iff.1 hline] at hpiece
  exact fun hfeed => (terminated_eq_iff.1 rfl).not_mem _ hpiece (feed_mem_encode hfeed)

theorem encodeChars_flatMap (css : List (List Char)) :
    encodeChars (css.flatMap (· ++ ['\n'])) = (css.map encodeChars).flatMap (· ++ [10]) := by
  induction css with
  | nil => rfl
  | cons cs css ih =>
    rw [List.flatMap_cons, encodeChars_append, encodeChars_append, ih]
    rfl

/-- Decoding line by line gives the lines of the text. -/
theorem linesOfBytes_encode (text : String) :
    linesOfBytes (encode text) = (Text.lines text).map some := by
  obtain ⟨pieces, last, hpieces, hlast, htext⟩ := exists_eq_flatMap_append '\n' text.toList
  have hbytes : ∀ piece ∈ pieces.map encodeChars, 10 ∉ piece :=
    List.forall_mem_map.2 fun piece hpiece => feed_not_mem_encodeChars (hpieces piece hpiece)
  rw [encode, Text.lines, linesOfBytes, htext, encodeChars_append, encodeChars_flatMap,
    terminated_flatMap_append hbytes (feed_not_mem_encodeChars hlast),
    terminated_flatMap_append hpieces hlast]
  simp only [encodeChars_eq_nil_iff, List.map_append, List.map_map]
  congr 1
  · exact List.map_congr_left fun cs _ => decode?_encodeChars cs
  · split
    · rfl
    · exact congrArg (fun line => [line]) (decode?_encodeChars last)

/-! ## Bytes that are whole lines -/

/-- The bytes are lines that all have their line feed. -/
def WholeLines (bytes : List UInt8) : Prop := ∀ b ∈ bytes.getLast?, b = 10

theorem wholeLines_flatMap (pieces : List (List UInt8)) :
    WholeLines (pieces.flatMap (· ++ [10])) := by
  rcases List.eq_nil_or_concat' pieces with rfl | ⟨pieces, piece, rfl⟩
  · simp [WholeLines]
  · simp [WholeLines, ← List.append_assoc]

theorem wholeLines_of_getLast? {bytes : List UInt8} (h : bytes.getLast? = some 10) :
    WholeLines bytes :=
  fun _ hb => Option.some.inj (hb.symm.trans h)

theorem WholeLines.exists_pieces {bytes : List UInt8} (h : WholeLines bytes) :
    ∃ pieces : List (List UInt8), (∀ piece ∈ pieces, 10 ∉ piece) ∧
      bytes = pieces.flatMap (· ++ [10]) := by
  obtain ⟨pieces, last, hpieces, hlast, rfl⟩ := exists_eq_flatMap_append 10 bytes
  rcases List.eq_nil_or_concat' last with rfl | ⟨bytes, b, rfl⟩
  · exact ⟨pieces, hpieces, List.append_nil _⟩
  · obtain rfl : b = 10 := h b (by simp)
    exact absurd (List.mem_append_right bytes (List.mem_singleton_self 10)) hlast

/-- Whole lines are kept, whatever comes after them. -/
theorem linesOfBytes_append {bytes more : List UInt8} (h : WholeLines bytes) :
    linesOfBytes (bytes ++ more) = linesOfBytes bytes ++ linesOfBytes more := by
  obtain ⟨pieces, hpieces, rfl⟩ := h.exists_pieces
  rw [linesOfBytes, linesOfBytes, linesOfBytes, terminated_append hpieces,
    terminated_flatMap hpieces, List.map_append]

end FiniteAutomata.Text
