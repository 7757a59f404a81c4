import FiniteAutomata.Text.Basic
import FiniteAutomata.Text.Escape

/-!
# Text attributes

The control sequence `ESC [ 1 ; 3 1 m` switches a terminal to bold and red, and `ESC [ 0 m` switches
it back. Its parameters ask for `Change`s, and a `Pen` is what a terminal writes with after some of
them: the attributes that are switched on.

A text of several lines is cut so that each line can stand on its own. The attributes that are on at
the end of a line are switched off there, and on again at the start of the next line.
-/

namespace FiniteAutomata.Text

/-- What a terminal can change in the look of characters. -/
inductive Attribute where
  | bold
  | faint
  | italic
  | underlined
  | blinking
  | rapidlyBlinking
  | inverted
  | hidden
  | crossedOut
  | font
  | fraktur
  | doublyUnderlined
  | proportional
  | foreground
  | background
  | underlineColor
  | framed
  | encircled
  | overlined
  | ideogramUnderlined
  | ideogramDoublyUnderlined
  | ideogramOverlined
  | ideogramDoublyOverlined
  | ideogramStressed
  | superscript
  | subscript
deriving DecidableEq, Repr

namespace Attribute

/-- All attributes, in the order in which they are switched on. -/
def all : List Attribute :=
  [bold, faint, italic, underlined, blinking, rapidlyBlinking, inverted, hidden, crossedOut, font,
    fraktur, doublyUnderlined, proportional, foreground, background, underlineColor, framed,
    encircled, overlined, ideogramUnderlined, ideogramDoublyUnderlined, ideogramOverlined,
    ideogramDoublyOverlined, ideogramStressed, superscript, subscript]

/-- The attributes that a single number switches on. -/
def switches : List (Nat × Attribute) :=
  [(1, bold), (2, faint), (3, italic), (4, underlined), (5, blinking), (6, rapidlyBlinking),
    (7, inverted), (8, hidden), (9, crossedOut), (20, fraktur), (21, doublyUnderlined),
    (26, proportional), (51, framed), (52, encircled), (53, overlined), (60, ideogramUnderlined),
    (61, ideogramDoublyUnderlined), (62, ideogramOverlined), (63, ideogramDoublyOverlined),
    (64, ideogramStressed), (73, superscript), (74, subscript)]

/-- The colours that can be chosen from a palette or mixed. -/
def colors : List (Nat × Attribute) :=
  [(38, foreground), (48, background), (58, underlineColor)]

/-- The attribute that a number switches on alone. -/
def ofNumber? (n : Nat) : Option Attribute :=
  if 11 ≤ n ∧ n ≤ 19 then some font
  else if (30 ≤ n ∧ n ≤ 37) ∨ (90 ≤ n ∧ n ≤ 97) then some foreground
  else if (40 ≤ n ∧ n ≤ 47) ∨ (100 ≤ n ∧ n ≤ 107) then some background
  else switches.lookup n

/-- The number that is written to switch an attribute off. -/
def off : Attribute → Nat
  | font => 10
  | bold | faint => 22
  | italic | fraktur => 23
  | underlined | doublyUnderlined => 24
  | blinking | rapidlyBlinking => 25
  | inverted => 27
  | hidden => 28
  | crossedOut => 29
  | foreground => 39
  | background => 49
  | proportional => 50
  | framed | encircled => 54
  | overlined => 55
  | underlineColor => 59
  | ideogramUnderlined | ideogramDoublyUnderlined | ideogramOverlined | ideogramDoublyOverlined
  | ideogramStressed => 65
  | superscript | subscript => 75

/-- The numbers that switch attributes off, in the order in which they are written. -/
def allOff : List Nat := [10, 22, 23, 24, 25, 27, 28, 29, 39, 49, 50, 54, 55, 65, 59, 75]

/-- Whether a number that is read switches an attribute off. Fraktur lasts until a reset. -/
def isEndedBy (a : Attribute) (n : Nat) : Bool := a.off == n && a != fraktur

end Attribute

/-- What the parameters of a control sequence ask for. -/
inductive Change where
  /-- All attributes are switched off. -/
  | reset
  /-- An attribute is switched on, by the numbers that say so. -/
  | on (a : Attribute) (code : List Nat)
  /-- The attributes of a group are switched off. -/
  | off (n : Nat)
  /-- A parameter has no known meaning. -/
  | unknown
deriving DecidableEq, Repr

namespace Change

/-- The value of a decimal number up to 255, which may follow a plus sign. -/
def byte? (cs : List Char) : Option Nat :=
  let digits := if cs.head? = some '+' then cs.tail else cs
  let value := Nat.ofDigitChars 10 digits 0
  if digits ≠ [] ∧ digits.all Char.isDigit ∧ value ≤ 255 then some value else none

/-- The number that a parameter is, if it is written without a sign and leading zeros. -/
def number? (cs : List Char) : Option Nat := (byte? cs).filter fun n => n.repr.toList = cs

/-- A part of a colour. What is no number counts as zero. -/
def part (cs : List Char) : Nat := (byte? cs).getD 0

/-- What a parameter asks for on its own. -/
def ofParameter (cs : List Char) : Change :=
  match number? cs with
  | none => unknown
  | some n =>
    if n = 0 then reset
    else match Attribute.ofNumber? n with
      | some a => on a [n]
      | none => if n ∈ Attribute.allOff then off n else unknown

/-- The number and the attribute of a colour whose choice is in the parameters behind. -/
def color? (cs : List Char) : Option (Nat × Attribute) :=
  (number? cs).bind fun n => (Attribute.colors.lookup n).map (n, ·)

/-- What parameters ask for. A colour takes the way of its choice with it, and then a place in the
palette or the parts of red, green and blue. It is ignored if the way is none of these, or if there
are too few parameters. -/
def ofParameters : List (List Char) → List Change
  | [] => []
  | p :: ps =>
    match color? p, ps with
    | some (n, a), ['5'] :: place :: ps => on a [n, 5, part place] :: ofParameters ps
    | some (n, a), ['2'] :: red :: green :: blue :: ps =>
      on a [n, 2, part red, part green, part blue] :: ofParameters ps
    | some _, ['5'] :: _ => []
    | some _, ['2'] :: _ => []
    | some _, _ :: ps => ofParameters ps
    | some _, [] => []
    | none, ps => ofParameter p :: ofParameters ps

/-- What a sequence asks for that sets text attributes. Its parameters stand between the opening
characters and the final one. -/
def ofSequence : List Char → List Change
  | '\x1b' :: '[' :: cs => ofParameters (cs.dropLast.splitOn ';')
  | _ => []

end Change

/-- What a terminal writes with: the attributes that are switched on, each with the numbers that did
it, whether there was a reset before, and whether there was a parameter without a known meaning
after that. -/
structure Pen where
  strokes : List (Attribute × List Nat)
  isReset : Bool
  isUnknown : Bool
deriving DecidableEq, Repr

namespace Pen

/-- The pen of a text that has not started. -/
def plain : Pen := ⟨[], false, false⟩

/-- The pen after a change. -/
def change (p : Pen) : Change → Pen
  | .reset => ⟨[], true, false⟩
  | .on a code => { p with strokes := (a, code) :: p.strokes.filter fun (b, _) => b != a }
  | .off n => { p with strokes := p.strokes.filter fun (a, _) => !a.isEndedBy n }
  | .unknown => { p with isUnknown := true }

/-- The pen after a line. -/
def after (p : Pen) (line : String) : Pen :=
  ((attributeSequences line.toList).flatMap Change.ofSequence).foldl change p

/-- Whether the pen needs care at the end of a line. A font alone does not, and neither does a
parameter without a known meaning unless it comes after a reset. -/
def isMarked (p : Pen) : Bool :=
  (p.isReset && p.isUnknown) || p.strokes.any fun (a, _) => a != .font

/-- The control sequence of some numbers. -/
def sequence (code : List Nat) : String := "\x1b[" ++ ";".intercalate (code.map Nat.repr) ++ "m"

/-- The numbers that switch the attributes of a plain pen on. -/
def openingCodes (p : Pen) : List (List Nat) :=
  Attribute.all.filterMap fun a => p.strokes.lookup a

/-- The numbers that switch the attributes off. A parameter without a known meaning is answered by a
zero at the end, and after a reset by one at the start as well. -/
def closingCodes (p : Pen) : List (List Nat) :=
  let groups := Attribute.allOff.filter fun n => p.strokes.any fun (a, _) => a.off == n
  (if p.isReset && p.isUnknown then [[0]] else []) ++ groups.map ([·]) ++
    (if p.isUnknown then [[0]] else [])

/-- The control sequences in front of a line that starts with this pen. -/
def opening (p : Pen) : String :=
  if p.isMarked then "".intercalate (p.openingCodes.map sequence) else ""

/-- The control sequences behind a line that ends with this pen. -/
def closing (p : Pen) : String :=
  if p.isMarked then "".intercalate (p.closingCodes.map sequence) else ""

/-- Lines that can stand on their own, from lines in sequence: each one opens with what the lines
before have left on, and closes what is on behind it. An empty line needs nothing. -/
def carry (p : Pen) : List String → List String
  | [] => []
  | line :: lines =>
    if line = "" then line :: carry p lines
    else (p.opening ++ line ++ (p.after line).closing) :: carry (p.after line) lines

end Pen

/-- The lines of a text, each one to stand on its own. A text of one line stays as it is. -/
def standaloneLines (text : String) : List String :=
  match splitAt '\n' text with
  | [line] => [line]
  | lines => Pen.plain.carry lines

end FiniteAutomata.Text
