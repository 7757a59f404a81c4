/-!
# Escape sequences

A terminal does not show the escape sequences of a text. The escape character `ESC` opens one:

* `ESC`, intermediate characters from the space to `/`, and a final character from `0` to `~`, as
  in `ESC c` or `ESC ( B`;
* `ESC [`, a header, and a final character from `@` to `~`, as in `ESC [ 3 1 m`, which switches to
  red;
* `ESC ]` and a text that ends with a bell or the next `ESC`, as in a window title;
* `ESC P`, a header, a final character and a text, or `ESC X`, `ESC ^` or `ESC _` and a text, up to
  the final character of the next sequence, mostly `ESC \`.

The parts of a line between complete sequences are measured as they stand. So an unfinished or
malformed sequence is text, but it is text in a line that shows something else: a part that ends at
a sequence is cut to as many bytes as were shown of it, and a part that shows nothing is left out.
An escape character that directly follows another one gives that one up, so a part loses a byte at
its front for each such repetition in it.
-/

namespace FiniteAutomata.Text

/-- Where a header stands. -/
inductive HeaderPhase where
  /-- Before its first character. -/
  | start
  /-- Among its parameters. -/
  | parameters
  /-- Among its intermediate characters. -/
  | intermediates
  /-- After a character in a wrong place. -/
  | malformed
deriving DecidableEq, Repr

/-- What has been read of the header of a sequence: where it stands, how many private markers and
intermediate characters it has, and how many separators between parameters. -/
structure Header where
  phase : HeaderPhase
  markers : Nat
  separators : Nat
deriving DecidableEq, Repr

namespace Header

/-- The header without characters. -/
def empty : Header := ⟨.start, 0, 0⟩

/-- The header with one more character. Intermediate characters come after the parameters, private
markers before them. -/
def add (h : Header) (c : Char) : Header :=
  let isIntermediate := ' ' ≤ c && c ≤ '/'
  let isSeparator := c == ':' || c == ';'
  let isMarker := '<' ≤ c && c ≤ '?'
  let isParameter := isSeparator || ('0' ≤ c && c ≤ '9')
  match h.phase with
  | .malformed => h
  | .intermediates =>
    if isIntermediate then { h with markers := h.markers + 1 }
    else if isMarker || isParameter then { h with phase := .malformed }
    else h
  | phase =>
    if isIntermediate then ⟨.intermediates, h.markers + 1, h.separators⟩
    else if isSeparator then ⟨.parameters, h.markers, h.separators + 1⟩
    else if isParameter then { h with phase := .parameters }
    else if isMarker then
      if phase = .start then ⟨.parameters, h.markers + 1, h.separators⟩
      else { h with phase := .malformed }
    else h

/-- Whether a control sequence with this header has a meaning: it has at most one marker or
intermediate character, and at most 32 parameters. -/
def isValid (h : Header) : Bool :=
  h.phase != .malformed && h.markers ≤ 1 && h.separators < 32

end Header

/-- What has been read of an escape sequence. -/
inductive EscapeState where
  /-- Nothing: characters are shown. -/
  | ground
  /-- The escape character. -/
  | opened
  /-- The escape character and intermediate characters. -/
  | intermediate
  /-- A part of a control sequence, which started with a bracket. -/
  | control (header : Header)
  /-- A part of the header of a text for a device. -/
  | device (header : Header)
  /-- A part of a command to the system around the terminal, which ends with a bell. -/
  | command
  /-- A part of a text for a device or an application. -/
  | string
deriving DecidableEq, Repr

/-- What a complete sequence is for. -/
inductive SequenceKind where
  /-- It sets text attributes: a control sequence without a marker whose final letter is `m`. -/
  | attributes
  /-- Anything else. -/
  | other
deriving DecidableEq, Repr

/-- What a character does: the state after it, how many bytes it shows, and which kind of sequence
it completes, if any. -/
structure EscapeStep where
  state : EscapeState
  shown : Nat
  completes : Option SequenceKind
deriving DecidableEq, Repr

/-- Whether a character is a control character that is obeyed even inside a sequence, and is shown
like any other. -/
def isControl (c : Char) : Bool := c < ' '

/-- Whether a character is a final one: from the given one up to the last printable one of
ASCII. -/
def isFinal (first c : Char) : Bool := first ≤ c && c ≤ '~'

namespace EscapeState

/-- The step to a state when nothing is shown or completed. -/
def silently (s : EscapeState) : EscapeStep := ⟨s, 0, none⟩

/-- The step to a state when a control character is obeyed. -/
def obeying (s : EscapeState) : EscapeStep := ⟨s, 1, none⟩

/-- The step when a sequence is complete. -/
def completing (kind : SequenceKind) : EscapeStep := ⟨ground, 0, some kind⟩

/-- The step at the character after an escape character. -/
def stepOpened (c : Char) : EscapeStep :=
  if isControl c then opened.obeying
  else if c == '[' then (control .empty).silently
  else if c == ']' then command.silently
  else if c == 'P' then (device .empty).silently
  else if c == 'X' || c == '^' || c == '_' then string.silently
  else if ' ' ≤ c && c ≤ '/' then intermediate.silently
  else if isFinal '0' c then completing .other
  else opened.silently

/-- The step at the final character of a control sequence. -/
def stepFinal (h : Header) (c : Char) : EscapeStep :=
  if !h.isValid then ground.silently
  else completing (if c == 'm' && h.markers == 0 then .attributes else .other)

/-- The step at a character in a text for a device or an application. The byte `9C` of an encoded
character ends the text. -/
def stepString (c : Char) : EscapeStep :=
  if (String.utf8EncodeChar c).contains 0x9c then ground.silently else string.silently

/-- The step at a character. -/
def step (s : EscapeState) (c : Char) : EscapeStep :=
  let interrupted := if s = command then some SequenceKind.other else none
  if c == '\x1b' then ⟨opened, 0, interrupted⟩
  else if c == '\x18' || c == '\x1a' then ⟨ground, 1, interrupted⟩
  else match s with
    | ground => ⟨ground, c.utf8Size, none⟩
    | opened => stepOpened c
    | intermediate =>
      if isControl c then intermediate.obeying
      else if isFinal '0' c then completing .other
      else intermediate.silently
    | control h =>
      if isControl c then (control h).obeying
      else if isFinal '@' c then stepFinal h c
      else (control (h.add c)).silently
    | device h =>
      if isFinal '@' c then string.silently
      else if (h.add c).phase = .malformed then string.silently
      else (device (h.add c)).silently
    | command => if c == '\x07' then completing .other else command.silently
    | string => stepString c

end EscapeState

/-- The longest first part of a text that takes at most the given number of bytes. -/
def takeBytes (n : Nat) : List Char → List Char
  | [] => []
  | c :: cs => if c.utf8Size ≤ n then c :: takeBytes (n - c.utf8Size) cs else []

/-- What is left of a text without the characters that start in its first bytes. -/
def dropBytes : Nat → List Char → List Char
  | _, [] => []
  | n, c :: cs => if n = 0 then c :: cs else dropBytes (n - c.utf8Size) cs

/-- What has been read of a text since the last complete sequence: the characters, from the last to
the first, how many bytes of them were shown, and how many escape characters among them directly
follow another one. -/
structure Segment where
  read : List Char
  shown : Nat
  repeated : Nat

namespace Segment

/-- The segment without characters. -/
def empty : Segment := ⟨[], 0, 0⟩

/-- The segment with one more character, which shows some bytes and may repeat an escape
character. -/
def add (g : Segment) (c : Char) (shown : Nat) (repeats : Bool) : Segment :=
  ⟨c :: g.read, g.shown + shown, if repeats then g.repeated + 1 else g.repeated⟩

/-- The characters without those lost to repeated escape characters. -/
def kept (g : Segment) : List Char := dropBytes g.repeated g.read.reverse

/-- The part to be measured when a sequence is complete. -/
def cut (g : Segment) : List Char := takeBytes g.shown g.kept

/-- What is behind that part, which is the sequence that is complete. -/
def sequence (g : Segment) : List Char := dropBytes (g.repeated + g.shown) g.read.reverse

/-- The part to be measured at the end of the text, if anything is shown. -/
def rest (g : Segment) : List (List Char) := if g.shown = 0 then [] else [g.kept]

end Segment

/-- The segments of a text that end with a complete sequence, each with the kind of that, and the
segment behind them. The first one continues the given segment, after an escape character or not. -/
def segmentsFrom (s : EscapeState) (escaped : Bool) (g : Segment) :
    List Char → List (Segment × SequenceKind) × Segment
  | [] => ([], g)
  | c :: cs =>
    let next := s.step c
    let escapes := c == '\x1b'
    let g := g.add c next.shown (escaped && escapes)
    match next.completes with
    | some kind =>
      let (segments, last) := segmentsFrom next.state escapes .empty cs
      ((g, kind) :: segments, last)
    | none => segmentsFrom next.state escapes g cs

/-- The segments of a text that end with a complete sequence, and the segment behind them. -/
def segments (cs : List Char) : List (Segment × SequenceKind) × Segment :=
  segmentsFrom .ground false .empty cs

/-- The parts of a text to be measured. -/
def shownParts (cs : List Char) : List (List Char) :=
  (segments cs).1.map (fun (g, _) => g.cut) ++ (segments cs).2.rest

/-- The complete sequences in a text that set text attributes. -/
def attributeSequences (cs : List Char) : List (List Char) :=
  (segments cs).1.filterMap fun (g, kind) => if kind = .attributes then some g.sequence else none

end FiniteAutomata.Text
