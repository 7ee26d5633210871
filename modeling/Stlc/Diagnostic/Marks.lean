import Stlc.Diagnostic.Basic
import Stlc.Diagnostic.Lines
import Stlc.Diagnostic.Paint

/-!
# Marks below a line

The places that a diagnostic is about are underlined, and what is said about a place stands to the
right of its underline, or below it where something else would be in the way: then a bar leads down
to it. The places are gone through from right to left, and each one that would collide with one to
its left pushes that one a row further down.
-/

namespace Stlc

/-- A marked part of a line, from column `first` up to, and not including, column `last`. The byte
that it begins with tells which of two marks is further to the right, also where no column lies
between them. -/
structure Mark where
  role : Role
  line : Nat
  start : Nat
  first : Nat
  last : Nat
  label? : Option String

namespace Mark

/-- Marks a place. An empty place still takes up one column, and a place that runs over several
lines is marked on its first one. -/
def ofAnnotation (lines : List Line) (a : Annotation) : Mark :=
  let line := Line.containing lines a.span.start
  let first := line.displayColumnOf a.span.start
  let last := line.displayColumnOf a.span.stop
  ⟨a.role, line.number, a.span.start, first, if last = first then first + 1 else last, a.label?⟩

/-- A mark as it is shown where the columns to the left of column `n` are not. -/
def moveLeft (n : Nat) (m : Mark) : Mark := { m with first := m.first - n, last := m.last - n }

def style (m : Mark) : Style :=
  match m.role with
  | .primary => .error
  | .context => .guide

def underline (m : Mark) : Row :=
  let c := match m.role with
    | .primary => '^'
    | .context => '-'
  List.replicate (m.last - m.first) ⟨c, m.style⟩

def labelled (m : Mark) : Bool := m.label?.isSome

/-- How far to the right a mark reaches with what is said about it. -/
def reach (m : Mark) : Nat :=
  match m.label? with
  | none => m.last
  | some label => m.last + label.length + 2

/-- Whether a mark that is drawn up to column `last` collides with another mark. -/
def collides (m : Mark) (last : Nat) (other : Mark) : Bool :=
  (m.first ≤ other.first && other.first < last) || (other.first ≤ m.first && m.first < other.last)

/-- Gives every mark a level, from the right to the left; on level 0 what is said about a mark
stands beside it. -/
def levels (level : Nat) : List Mark → List (Nat × Mark)
  | [] => []
  | m :: ms =>
    let level :=
      if level == 0 && m.labelled && ms.any (fun n => n.collides n.last m) then 1 else level
    let next :=
      if m.labelled && ms.any (fun n => n.labelled && n.collides n.reach m) then level + 1
      else level
    (level, m) :: levels next ms

/-- A piece to be painted: its row below the line, its column, and the piece itself. -/
abbrev Piece := Nat × Nat × Row

/-- The bar that leads down to what is said about a mark. -/
def bar : Nat × Mark → List Piece
  | (0, _) => []
  | (level, m) =>
    if m.labelled then (List.range (level + 1)).map fun row => (row, m.first, [⟨'|', m.style⟩])
    else []

def caption : Nat × Mark → List Piece
  | (level, m) =>
    match m.label? with
    | none => []
    | some label =>
      let text := Row.ofString m.style label
      if level = 0 then [(0, m.last + 1, text)] else [(level + 1, m.first, text)]

/-- The order in which underlines are painted: a shorter one over a longer one, and of two that
are equally long the primary one over the other. -/
def paintedBefore (m n : Mark) : Bool :=
  let length (k : Mark) := k.last - k.first
  length n < length m || (length m == length n && (m.role != .primary || n.role == .primary))

def rowsBelow (marks : List Mark) : List Row :=
  let placed := levels 0 (marks.mergeSort fun m n => n.start ≤ m.start)
  let underlines : List Piece :=
    (marks.mergeSort paintedBefore).map fun m => (0, m.first, m.underline)
  let pieces := placed.flatMap bar ++ placed.flatMap caption ++ underlines
  let deepest := (placed.map Prod.fst).foldl max 0
  let height := if deepest = 0 then 1 else deepest + 2
  (List.range height).map fun i =>
    (pieces.filter (·.1 == i)).foldl (fun row piece => row.paint piece.2.1 piece.2.2) []

end Mark

end Stlc
