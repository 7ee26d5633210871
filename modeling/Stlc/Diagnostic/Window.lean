import Stlc.Diagnostic.Marks
import Stlc.Text.Blank

/-!
# The window on the marked lines

Marked lines that begin far to the right are moved to the left, as seen through a window: an
ellipsis stands in the place of the columns that are cut off. What is cut off follows from all
marked lines together, so that they keep their places beneath each other.
-/

namespace Stlc

/-- What decides how much of the marked lines is cut off. Columns count from 0. -/
structure Extent where
  /-- How many blanks all the lines begin with. -/
  blank : Nat
  /-- The first column of the leftmost mark. -/
  first : Nat
  /-- The column after the rightmost mark. -/
  last : Nat
  /-- The column after what is said about the marks, if all of it stood beside them. -/
  reach : Nat
  /-- The bytes of the longest line. -/
  bytes : Nat

namespace Extent

/-- How many blanks a line begins with, as they are shown. -/
def leadingBlanks (l : Line) : Nat := ((l.text.takeWhile isBlank).flatMap shownChar).length

/-- The extent of marked lines. A line of nothing but blanks does not tell where the text begins. -/
def ofMarks (lines : List Line) (marks : List Mark) : Extent :=
  let marked := lines.filter fun l => marks.any (·.line == l.number)
  let blanks := (marked.filter (·.text.any (!isBlank ·))).map leadingBlanks
  { blank := blanks.min?.getD 0
    first := (marks.map fun m => min m.first m.last).min?.getD 0
    last := (marks.map fun m => max m.first m.last).foldl max 0
    reach := (marks.map fun m => m.last + m.label?.elim 0 (·.utf8ByteSize + 1)).foldl max 0
    bytes := (marked.map (byteLength ·.text)).foldl max 0 }

/-- How many columns are cut off where there is room for `room` columns. Blanks are cut off down to
a margin when there are many. If the lines are still too long, all the blanks go, or else the marks
and what is said about them are moved to the middle of the window, or else the marks alone. Six
columns beside what has to stay are left to an ellipsis. -/
def cut (room : Nat) (e : Extent) : Nat :=
  let blank := min e.blank e.first - 6
  let first := e.first - 6
  let last := e.last + 6
  let reach := e.reach + 6
  let spare := if 20 < blank then blank - 16 else 0
  if e.bytes - spare ≤ room then spare
  else if reach - blank ≤ room then blank
  else if reach - first ≤ room then first - (room - (reach - first)) / 2
  else if last - first ≤ room then first - (room - (last - first)) / 5 * 2
  else first

end Extent

/-- How many columns are cut off a line, and what is shown of it. The ellipsis hides three more
columns, and a blank follows it in the place of the second half of a wide character. -/
def Line.cutBy (cut : Nat) (l : Line) : Nat × Row :=
  let plain (cs : List Char) : Row := cs.map (⟨·, .plain⟩)
  let text := l.text.flatMap shownChar
  if cut = 0 then (0, plain text)
  else
    let (gone, text) := dropColumns cut text
    let (hidden, text) := dropColumns 3 text
    let ellipsis := Row.ofString .guide "..."
    (gone, if text.isEmpty then ellipsis else ellipsis ++ .blanks (hidden - 3) ++ plain text)

end Stlc
