import FiniteAutomata.Text.CharWidth

/-!
# Ligatures

Some scripts draw two letters as one, one column wide: lam and alef in Arabic, and pairs in Hebrew,
Buginese, Tifinagh, Lisu and Old Turkic. In Khmer a letter below another one takes no column of its
own. A text is measured from its end, so what is kept of the characters behind the next one is the
`LigatureTail` they start. Marks that Unicode asks to ignore do not break a ligature.
-/

namespace FiniteAutomata.Text

/-- The code points of the characters without a width that break an Arabic ligature. -/
def ligatureBreakRanges : List (Nat × Nat) :=
  [(0x605, 0x605), (0x890, 0x891), (0x8e2, 0x8e2), (0x9be, 0x9be), (0x9d7, 0x9d7), (0xb3e, 0xb3e),
    (0xb57, 0xb57), (0xbbe, 0xbbe), (0xbd7, 0xbd7), (0xcc0, 0xcc0), (0xcc2, 0xcc2),
    (0xcc7, 0xcc8), (0xcca, 0xccb), (0xcd5, 0xcd6), (0xd3e, 0xd3e), (0xd4e, 0xd4e),
    (0xd57, 0xd57), (0xdcf, 0xdcf), (0xddf, 0xddf), (0x1160, 0x11ff), (0x180e, 0x180e),
    (0x1b35, 0x1b35), (0x1b3b, 0x1b3b), (0x1b3d, 0x1b3d), (0x1b43, 0x1b43), (0x200c, 0x200d),
    (0x2065, 0x2069), (0x302e, 0x302f), (0x3164, 0x3164), (0xa8fa, 0xa8fa), (0xd7b0, 0xd7c6),
    (0xd7cb, 0xd7fb), (0xff9e, 0xffa0), (0xfff0, 0xfff8), (0x111c2, 0x111c3), (0x1133e, 0x1133e),
    (0x11357, 0x11357), (0x114b0, 0x114b0), (0x114bd, 0x114bd), (0x115af, 0x115af),
    (0x11930, 0x11930), (0x1193f, 0x1193f), (0x11941, 0x11941), (0x11a3a, 0x11a3a),
    (0x11a84, 0x11a89), (0x11d46, 0x11d46), (0x11f02, 0x11f02), (0x1d165, 0x1d165),
    (0x1d16e, 0x1d172), (0xe0000, 0xe0000), (0xe0002, 0xe001f), (0xe0080, 0xe00ff),
    (0xe01f0, 0xe0fff)]

/-- Whether a character can stand inside an Arabic ligature. -/
def isArabicMark (c : Char) : Bool :=
  charWidth c == 0 && !inRanges c.toNat ligatureBreakRanges

/-- Whether a character is a combining mark that Unicode asks to ignore. -/
def isIgnoredMark (c : Char) : Bool :=
  c == '\u034f' || isBetween 0x17b4 0x17b5 c || isBetween 0x180b 0x180d c || c == '\u180f' ||
  isBetween 0xfe00 0xfe0f c || isBetween 0xe0100 0xe01ef c

/-- Whether a character is a form of the Arabic letter alef. -/
def isAlef (c : Char) : Bool :=
  c == '\u0622' || c == '\u0623' || c == '\u0625' || c == '\u0627' || isBetween 0x671 0x673 c ||
  c == '\u0675' || isBetween 0x773 0x774 c || isBetween 0x870 0x882 c

/-- Whether a character is a form of the Arabic letter lam. -/
def isLam (c : Char) : Bool :=
  c == '\u0644' || isBetween 0x6b5 0x6b8 c || c == '\u076a' || c == '\u08a6' || c == '\u08c7'

/-- Whether a character is a Khmer letter that can stand below another one. -/
def isKhmerSubscript (c : Char) : Bool :=
  isBetween 0x1780 0x1782 c || isBetween 0x1784 0x1787 c || isBetween 0x1789 0x178c c ||
  isBetween 0x178e 0x1793 c || isBetween 0x1795 0x1798 c || isBetween 0x179b 0x179d c ||
  c == '\u17a0' || c == '\u17a2' || c == '\u17a7' || isBetween 0x17ab 0x17ac c || c == '\u17af'

/-- Whether a character is a Tifinagh consonant. -/
def isTifinaghConsonant (c : Char) : Bool := isBetween 0x2d31 0x2d65 c || c == '\u2d6f'

/-- What a text starts with that can be the second part of a ligature. Some need a joiner in front
of them, and keep whether it was there. -/
inductive LigatureTail where
  /-- A form of the Arabic letter alef. -/
  | alef
  /-- The Hebrew letter lamed. -/
  | lamed (isJoined : Bool)
  /-- A Khmer letter that can stand below another one. -/
  | khmerSubscript
  /-- The Buginese letter ya. -/
  | buginese (isJoined : Bool)
  /-- A Buginese vowel sign, a joiner and the letter ya. -/
  | bugineseVowel
  /-- A Tifinagh consonant. -/
  | tifinagh (isJoined : Bool)
  /-- The Tifinagh consonant joiner and a consonant. -/
  | tifinaghJoiner
  /-- A Lisu tone that ends a pair of tones. -/
  | lisuTone
  /-- The Old Turkic letter orkhon i. -/
  | oldTurkic (isJoined : Bool)
deriving DecidableEq

namespace LigatureTail

/-- The tail that a character starts on its own. -/
def ofChar? (c : Char) : Option LigatureTail :=
  if isAlef c then some alef
  else if c == '\u05dc' then some (lamed false)
  else if isKhmerSubscript c then some khmerSubscript
  else if c == '\u1a10' then some (buginese false)
  else if isTifinaghConsonant c then some (tifinagh false)
  else if isBetween 0xa4fc 0xa4fd c then some lisuTone
  else if c.toNat == 0x10c03 then some (oldTurkic false)
  else none

/-- The tail after a joiner. -/
def join : LigatureTail → LigatureTail
  | lamed _ => lamed true
  | buginese _ => buginese true
  | tifinagh _ => tifinagh true
  | oldTurkic _ => oldTurkic true
  | tail => tail

/-- How many columns a character adds in front of a tail it makes a ligature with, and the tail
that is left of it. -/
def ligate? (tail : LigatureTail) (c : Char) : Option (Int × Option LigatureTail) :=
  match tail with
  | alef => if isLam c then some (0, none) else none
  | lamed true => if c == '\u05d0' then some (0, none) else none
  | khmerSubscript => if c == '\u17d2' then some (-1, none) else none
  | buginese true => if c == '\u1a17' then some (0, some bugineseVowel) else none
  | bugineseVowel => if c == '\u1a15' then some (0, none) else none
  | tifinagh isJoined =>
    if c == '\u2d7f' then some (1, some tifinaghJoiner)
    else if isJoined && isTifinaghConsonant c then some (0, none)
    else none
  | tifinaghJoiner => if isTifinaghConsonant c then some (-1, none) else none
  | lisuTone => if isBetween 0xa4f8 0xa4fb c then some (0, none) else none
  | oldTurkic true => if c.toNat == 0x10c32 then some (0, none) else none
  | lamed false | buginese false | oldTurkic false => none

/-- How many columns a character adds in front of a tail it does not separate from what comes
before, and the new tail. Arabic ligatures are broken by joiners, but not by the marks of their
letters. -/
def extend? (tail : LigatureTail) (c : Char) : Option (Int × Option LigatureTail) :=
  if tail == alef then
    if isArabicMark c then some (0, some alef) else tail.ligate? c
  else if c == '\u200d' then some (0, some tail.join)
  else if isIgnoredMark c then some (0, some tail)
  else tail.ligate? c

end LigatureTail

end FiniteAutomata.Text
