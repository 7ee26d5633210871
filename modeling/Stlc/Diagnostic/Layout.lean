import Stlc.Diagnostic.Window

/-!
# The layout of a diagnostic

A title, the place in the text, the marked lines with the marks below each, and the note. Line
numbers stand to the left of a margin, aligned at their last digit. Of the lines between two marked
ones a single one is shown, and more than one are left out.
-/

namespace Stlc

namespace Diagnostic

/-- The margin of a row that has no line number, where numbers take up `width` columns. -/
def margin (width : Nat) : Row := .blanks width ++ .blanks 1 ++ .ofString .guide "|"

/-- The margin of a row that has a line number. A number that takes up more than `width` columns
leaves no blank between itself and the margin. -/
def numberedMargin (width n : Nat) : Row :=
  let digits := toString n
  let number := Row.ofString .guide ("".pushn ' ' (width - digits.length) ++ digits)
  number.paint (width + 1) (.ofString .guide "|")

def beside (margin row : Row) : Row := if row.isEmpty then margin else margin ++ .blanks 1 ++ row

/-- How the lines of a text are shown: the columns that line numbers take up, and how many columns
are cut off every line. -/
structure View where
  width : Nat
  cut : Nat

def sourceRow (v : View) (l : Line) : Row :=
  beside (numberedMargin v.width l.number) (l.cutBy v.cut).2

def markRows (v : View) (l : Line) (marks : List Mark) : List Row :=
  (Mark.rowsBelow (marks.map (.moveLeft (l.cutBy v.cut).1))).map (beside (margin v.width))

def gap (v : View) (lines : List Line) (above below : Nat) : List Row :=
  match lines.filter fun l => above < l.number && l.number < below with
  | [] => []
  | [l] => [sourceRow v l]
  | _ => [.ofString .guide "..."]

/-- The lines of the text that have marks, with what is below and between them. `above?` is the
number of the line that was shown last, if one was. -/
def markedRows (v : View) (lines : List Line) (marks : List Mark) (above? : Option Nat) :
    List Line → List Row
  | [] => []
  | l :: ls =>
    let own := marks.filter (·.line == l.number)
    if own.isEmpty then markedRows v lines marks above? ls
    else
      let between := match above? with
        | none => []
        | some above => gap v lines above l.number
      between ++ [sourceRow v l] ++ markRows v l own
        ++ markedRows v lines marks (some l.number) ls

def placeRow (width : Nat) (origin : String) (lines : List Line) (offset : Nat) : Row :=
  let l := Line.containing lines offset
  .blanks width ++ .ofString .guide "--> "
    ++ .ofString .plain
      (origin ++ ":" ++ toString l.number ++ ":" ++ toString (l.columnOf offset + 1))

/-- The note. Its first line follows on the word `error`, and the others stand below. -/
def noteRows (width : Nat) (note : String) : List Row :=
  match note.splitOn "\n" with
  | [] => []
  | first :: others =>
    (.blanks (width + 1) ++ .ofString .guide "= " ++ .ofString .strong "error"
        ++ .ofString .plain (": " ++ first))
      :: others.map fun line => .blanks (width + 10) ++ .ofString .plain line

def titleRows (title : String) : List Row :=
  let line (s : String) : Row := (s.toList.flatMap shownChar).map (⟨·, .strong⟩)
  match title.splitOn "\n" with
  | [] => []
  | first :: others =>
    (.ofString .error "error" ++ .ofString .strong ": " ++ line first)
      :: others.map fun other => .blanks 7 ++ line other

/-- How many columns line numbers take up: as many as the number of the last line that a marked
place reaches into. An empty place at the beginning of a line does not reach into it. -/
def numberWidth (lines : List Line) (annotations : List Annotation) : Nat :=
  if annotations.isEmpty then 0
  else
    let stop := (annotations.map (·.span.stop)).foldl max 0
    (toString (max 1 (lines.filter (·.start < stop)).length)).length

/-- How many columns a row may take up before it is shortened. -/
def rowWidth : Nat := 140

/-- How the lines of a text are shown that has the given marks. What is left of a row beside the
line number and the margin is room for the line. -/
def view (lines : List Line) (annotations : List Annotation) (marks : List Mark) : View :=
  let width := numberWidth lines annotations
  ⟨width, (Extent.ofMarks lines marks).cut (rowWidth - (width + 3))⟩

/-- The rows of a diagnostic on a text, which is called `origin`. -/
def rows (d : Diagnostic) (source origin : String) : List Row :=
  let lines := Line.ofString source
  let marks := d.annotations.map (Mark.ofAnnotation lines)
  let v := view lines d.annotations marks
  let place := match d.annotations.find? (·.role == .primary) with
    | none => []
    | some a =>
      placeRow v.width origin lines a.span.start :: margin v.width
        :: markedRows v lines marks none lines
  let note := match d.note? with
    | none => []
    | some note => margin v.width :: noteRows v.width note
  titleRows d.title ++ place ++ note

def toPlain (d : Diagnostic) (source origin : String) : String :=
  String.intercalate "\n" ((d.rows source origin).map Row.toPlain)

def toStyled (d : Diagnostic) (source origin : String) : String :=
  String.intercalate "\n" ((d.rows source origin).map Row.toStyled)

end Diagnostic

end Stlc
