/-!
# Texts

What is read and shown is cut into lines and fields, trimmed, and put together from names.

A line ends at a line feed, and the last line needs none: a text that ends with a line feed has no
further, empty line after it. Input that comes as bytes is cut into lines first and decoded line by
line, so each line is either a text or `none` where its bytes are not UTF-8. A carriage return
before the line feed stays in the line. It is white space, which the readers of lines trim.

A character is blank if it has the Unicode property `White_Space`. Trimming removes blank
characters at both ends of a text and nothing in between.

Lists of names are shown with a comma and a space between the entries, bare (`A, B`), in braces
for a set (`{A, B}`) or in brackets for an ordered collection (`[a, b]`).
-/

namespace FiniteAutomata.Text

/-! ## Lines and fields -/

/-- The pieces between separators, where a separator at the very end starts no further piece. -/
def terminated {α : Type} [BEq α] (separator : α) (xs : List α) : List (List α) :=
  let pieces := xs.splitOn separator
  if pieces.getLast? == some [] then pieces.dropLast else pieces

/-- The text that some bytes encode, if they are UTF-8. -/
def decode? (bytes : List UInt8) : Option String := String.fromUTF8? ⟨bytes.toArray⟩

/-- The lines of a text. -/
def lines (text : String) : List String := (terminated '\n' text.toList).map .ofList

/-- The lines of some bytes, each decoded on its own. -/
def linesOfBytes (bytes : List UInt8) : List (Option String) :=
  (terminated 10 bytes).map decode?

/-- The pieces of a text between the occurrences of a character. -/
def splitAt (separator : Char) (text : String) : List String :=
  (text.toList.splitOn separator).map .ofList

theorem mem_of_mem_splitOnPPrepend {α : Type} {p : α → Bool} {xs acc piece : List α} {x : α}
    (hp : piece ∈ xs.splitOnPPrepend p acc) (hx : x ∈ piece) : x ∈ acc ∨ x ∈ xs := by
  induction xs generalizing acc with
  | nil =>
    simp only [List.splitOnPPrepend_nil, List.mem_singleton] at hp
    exact .inl (by simpa [hp] using hx)
  | cons y ys ih =>
    rw [List.splitOnPPrepend_cons_eq_if] at hp
    split at hp
    · rcases List.mem_cons.1 hp with rfl | hp
      · exact .inl (by simpa using hx)
      · rcases ih hp with h | h
        · simp at h
        · exact .inr (List.mem_cons_of_mem _ h)
    · rcases ih hp with h | h
      · rcases List.mem_cons.1 h with rfl | h
        · exact .inr List.mem_cons_self
        · exact .inl h
      · exact .inr (List.mem_cons_of_mem _ h)

/-- A piece of a text has only characters of the text. -/
theorem mem_of_mem_splitAt {separator c : Char} {text piece : String}
    (hp : piece ∈ splitAt separator text) (hc : c ∈ piece.toList) : c ∈ text.toList := by
  obtain ⟨cs, hcs, rfl⟩ := List.mem_map.1 hp
  rw [String.toList_ofList] at hc
  rw [List.splitOn_eq_splitOnP, List.splitOnP_eq_splitOnPPrepend] at hcs
  simpa using mem_of_mem_splitOnPPrepend hcs hc

/-! ## White space -/

/-- Whether a character is white space. -/
def isBlank (c : Char) : Bool :=
  ('\x09' ≤ c && c ≤ '\x0d') || c == ' ' || c == '\x85' || c == '\u00a0' || c == '\u1680' ||
  ('\u2000' ≤ c && c ≤ '\u200a') || c == '\u2028' || c == '\u2029' || c == '\u202f' ||
  c == '\u205f' || c == '\u3000'

/-- Removes blank characters at the front. -/
def trimLeft (cs : List Char) : List Char := cs.dropWhile isBlank

/-- Removes blank characters at the back. -/
def trimRight (cs : List Char) : List Char := (trimLeft cs.reverse).reverse

/-- Removes blank characters at both ends. -/
def trimChars (cs : List Char) : List Char := trimRight (trimLeft cs)

/-- Removes blank characters at both ends. -/
def trim (s : String) : String := .ofList (trimChars s.toList)

/-! ## Enumerations -/

/-- The entries with a comma and a space between any two. -/
def enumerate (entries : List String) : String := ", ".intercalate entries

/-- The entries in braces, the form of a set. -/
def braced (entries : List String) : String := "\x7b" ++ enumerate entries ++ "\x7d"

/-- The entries in brackets, the form of an ordered collection. -/
def bracketed (entries : List String) : String := "[" ++ enumerate entries ++ "]"

end FiniteAutomata.Text
