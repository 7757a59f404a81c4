import FiniteAutomata.Text.Emoji
import FiniteAutomata.Text.Escape
import FiniteAutomata.Text.Ligature

/-!
# Displayed width

The width of a text is the sum of the widths of its characters, except where several characters
make up one emoji or ligature. A text is measured from its end: each character adds columns that
depend on what is behind it. In a line only the parts outside escape sequences are measured, each
part on its own.
-/

namespace FiniteAutomata.Text

/-- A character that chooses between the forms of the one before it. -/
inductive Selector where
  /-- Asks for plain text. -/
  | text
  /-- Asks for an emoji. -/
  | emoji
deriving DecidableEq

/-- The selector that a character is. -/
def Selector.ofChar? (c : Char) : Option Selector :=
  if c == '\ufe0f' then some emoji else if c == '\ufe0e' then some text else none

/-- What a text starts with that matters for the characters in front of it. -/
inductive Tail where
  /-- Nothing. -/
  | plain
  /-- A part of an emoji. -/
  | emoji (tail : EmojiTail)
  /-- The second part of a ligature. -/
  | ligature (tail : LigatureTail)
deriving DecidableEq

namespace Tail

/-- The tail that a character starts on its own. -/
def ofChar (c : Char) : Tail :=
  match LigatureTail.ofChar? c, EmojiTail.ofChar? c with
  | some l, _ => ligature l
  | none, some e => emoji e
  | none, none => plain

/-- Whether the tail is a joined emoji that a character in emoji form belongs to. -/
def isJoinedEmoji : Tail → Bool
  | emoji e => e.isJoined
  | _ => false

/-- The tail that a selector leaves. Selectors never break a ligature. -/
def select (tail : Tail) (s : Selector) : Tail :=
  match tail with
  | ligature l => ligature l
  | emoji e => if s = .emoji && e.isJoined then emoji e else plain
  | plain => plain

/-- The tail for a character that does not follow a selector's wish. -/
def unselect : Tail → Tail
  | ligature l => ligature l
  | _ => plain

/-- How many columns a character adds in front of a tail without a selector, and the new tail. -/
def extend (tail : Tail) (c : Char) : Int × Tail :=
  let grown : Option (Int × Tail) := match tail with
    | plain => none
    | emoji e => (e.extend? c).map fun (n, e) => (n, emoji e)
    | ligature l => (l.extend? c).map fun (n, l?) => (n, (l?.map ligature).getD plain)
  grown.getD (charWidth c, ofChar c)

end Tail

/-- What is kept of a text while it is measured from its end. -/
structure Measure where
  width : Int
  selector? : Option Selector
  tail : Tail

namespace Measure

/-- The measure of the empty text. -/
def empty : Measure := ⟨0, none, .plain⟩

/-- The measure of a text with one more character in front. -/
def add (c : Char) (m : Measure) : Measure :=
  let plainly (tail : Tail) : Measure :=
    match Selector.ofChar? c with
    | some s => ⟨m.width, some s, tail.select s⟩
    | none => let (n, tail) := tail.extend c; ⟨m.width + n, none, tail⟩
  match m.selector? with
  | some .emoji =>
    if isEmojiBase c then
      ⟨m.width + (if m.tail.isJoinedEmoji then 0 else 2), none, .emoji .emoji⟩
    else plainly m.tail.unselect
  | some .text => if isTextBase c then ⟨m.width + 1, none, .plain⟩ else plainly m.tail.unselect
  | none => plainly m.tail

end Measure

/-- The number of columns a text without escape sequences takes. -/
def textWidth (cs : List Char) : Nat := (cs.foldr Measure.add .empty).width.toNat

/-- The number of columns a line takes. -/
def lineWidth (line : String) : Nat :=
  (shownParts line.toList).foldl (fun n part => n + textWidth part) 0

end FiniteAutomata.Text
