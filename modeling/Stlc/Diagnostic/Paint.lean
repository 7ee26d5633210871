/-!
# Painted rows

A row of text in which every character has a style. Rows are painted piece by piece, a later piece
over an earlier one, and written out with terminal codes or without.
-/

namespace Stlc

inductive Style where
  /-- As any other text. -/
  | plain
  /-- Bold. -/
  | strong
  /-- Bold red, for what is wrong. -/
  | error
  /-- Bold blue, for the frame around it. -/
  | guide
deriving DecidableEq

def Style.codes : Style → String
  | plain => ""
  | strong => "\x1b[1m"
  | error => "\x1b[1m\x1b[91m"
  | guide => "\x1b[1m\x1b[94m"

structure Cell where
  char : Char
  style : Style
deriving DecidableEq

/-- A line of text, one cell a column. -/
abbrev Row := List Cell

namespace Row

def ofString (style : Style) (s : String) : Row := s.toList.map (⟨·, style⟩)

def blanks (n : Nat) : Row := List.replicate n ⟨' ', .plain⟩

/-- Puts a piece over a row, from a column on. A row that is too short is filled up with spaces. -/
def paint (row : Row) (column : Nat) (piece : Row) : Row :=
  row.take column ++ blanks (column - row.length) ++ piece ++ row.drop (column + piece.length)

def toPlain (row : Row) : String := String.ofList (row.map Cell.char)

def runs : Row → List (Style × List Char)
  | [] => []
  | ⟨c, style⟩ :: row =>
    match runs row with
    | [] => [(style, [c])]
    | (style', cs) :: rest =>
      if style = style' then (style, c :: cs) :: rest else (style, [c]) :: (style', cs) :: rest

def styledRun : Style × List Char → String
  | (.plain, cs) => String.ofList cs
  | (style, cs) => style.codes ++ String.ofList cs ++ "\x1b[0m"

def toStyled (row : Row) : String := String.join ((runs row).map styledRun)

end Row

end Stlc
