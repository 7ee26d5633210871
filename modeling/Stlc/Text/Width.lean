import Stlc.Text.Extending
import Stlc.Text.Ignorable
import Stlc.Text.Wide

/-!
# Columns

How a text is shown on a terminal, and how many columns it takes up there. Characters that would
upset the layout are shown by others in their place.
-/

namespace Stlc

/-- What is shown in the place of a character that would upset the layout: a tab is four spaces, a
control is its picture, a joiner is dropped, and a change of the writing direction is shown as an
unknown character. -/
def standIn? (c : Char) : Option (List Char) :=
  let n := c.toNat
  if c = '\t' then some [' ', ' ', ' ', ' ']
  else if n < 0x20 then some [Char.ofNat (0x2400 + n)]
  else if n = 0x7F then some [Char.ofNat 0x2421]
  else if n = 0x200D then some []
  else if (0x202A ≤ n && n ≤ 0x202E) || (0x2066 ≤ n && n ≤ 0x2069) then
    some [Char.ofNat 0xFFFD]
  else none

def shownChar (c : Char) : List Char := (standIn? c).getD [c]

/-- Whether a character is a vowel or a final consonant of Hangul. It is drawn into the syllable
that the consonant before it begins. -/
def isInnerJamo (c : Char) : Bool :=
  let n := c.toNat
  (0x1160 ≤ n && n ≤ 0x11FF) || (0xD7B0 ≤ n && n ≤ 0xD7C6) || (0xD7CB ≤ n && n ≤ 0xD7FB)

/-- Whether a character is drawn over or into the one that follows it. -/
def isPrepended (c : Char) : Bool :=
  let n := c.toNat
  n == 0x605 || n == 0x70F || n == 0x890 || n == 0x891 || n == 0x8E2 || n == 0xD4E
    || n == 0xA8FA || n == 0x111C2 || n == 0x111C3 || n == 0x113D1 || n == 0x1193F
    || n == 0x11941 || (0x11A84 ≤ n && n ≤ 0x11A89) || n == 0x11D46 || n == 0x11F02

/-- The columns of a character that its properties would give others: the filler for the first
consonant of a Hangul syllable, two Khmer signs that are written as several letters, and the
Tifinagh joiner, which is shown where it joins nothing. -/
def ownWidth? (c : Char) : Option Nat :=
  let n := c.toNat
  if n = 0x115F || n = 0x17A4 then some 2
  else if n = 0x17D8 then some 3
  else if n = 0x2D7F then some 1
  else none

/-- The columns a character takes up, or what is shown in its place. -/
def charWidth (c : Char) : Nat :=
  match standIn? c, ownWidth? c with
  | some shown, _ => shown.length
  | none, some width => width
  | none, none =>
    if isExtending c || isIgnorable c || isInnerJamo c || isPrepended c then 0
    else if isWide c then 2
    else 1

def textWidth (cs : List Char) : Nat := cs.foldr (charWidth · + ·) 0

/-- Drops characters at the left of a text until `n` columns are gone. Also says how many columns
are gone in the end: fewer than `n` if the text has no more, and more than `n` if a wide character
would have been cut in two. -/
def dropColumns : Nat → List Char → Nat × List Char
  | _, [] => (0, [])
  | n, c :: cs =>
    if n = 0 then (0, c :: cs)
    else
      let (gone, rest) := dropColumns (n - charWidth c) cs
      (charWidth c + gone, rest)

end Stlc
