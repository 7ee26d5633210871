import Stlc.Source.Scan
import Stlc.Text.Width

/-!
# Lines of a source text

The lines of a text, and the line and column of a byte of it. A line ends at a line feed, with the
carriage return before it, if there is one.
-/

namespace Stlc

structure Line where
  /-- Its number, from 1. -/
  number : Nat
  /-- Its characters, without the line break. -/
  text : List Char
  /-- The offset of its first byte. -/
  start : Nat
  /-- The offset of the first byte after it and its line break. -/
  stop : Nat

namespace Line

/-- Splits a text into lines. `seen` is what has been read of the line `number`, which begins at
offset `start`, last character first. -/
def splitFrom (number start : Nat) (seen : List Char) : List Char → List Line
  | [] =>
    if seen.isEmpty && number != 1 then []
    else [⟨number, seen.reverse, start, start + byteLength seen⟩]
  | c :: cs =>
    if c = '\n' then
      let text := if seen.head? = some '\r' then seen.tail.reverse else seen.reverse
      let stop := start + byteLength seen + 1
      ⟨number, text, start, stop⟩ :: splitFrom (number + 1) stop [] cs
    else splitFrom number start (c :: seen) cs

/-- The lines of a text. There is at least one. -/
def ofString (source : String) : List Line := splitFrom 1 0 [] source.toList

/-- The characters that lie within the first `n` bytes of a text. -/
def within (n : Nat) : List Char → List Char
  | [] => []
  | c :: cs => if c.utf8Size ≤ n then c :: within (n - c.utf8Size) cs else []

/-- The line that the byte at an offset belongs to. Whatever lies beyond the text belongs to its
last line. -/
def containing (lines : List Line) (offset : Nat) : Line :=
  match lines.find? (fun l => l.start ≤ offset && offset < l.stop) with
  | some l => l
  | none => lines.getLast?.getD ⟨1, [], 0, 0⟩

/-- How many characters of a line lie before an offset. A place beyond the last character has a
column of its own. -/
def columnOf (l : Line) (offset : Nat) : Nat :=
  (within (offset - l.start) l.text).length
    + if byteLength l.text < offset - l.start then 1 else 0

/-- How many columns the characters of a line take up that lie before an offset. -/
def displayColumnOf (l : Line) (offset : Nat) : Nat :=
  textWidth (within (offset - l.start) l.text)

end Line

end Stlc
