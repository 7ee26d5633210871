import Stlc.Source.Token
import Stlc.Text.Blank

/-!
# From text to tokens

A source text is a sequence of pieces: tokens, blanks and comments. `Piece.front` cuts the longest
possible piece off a text, and `Scan.ofString` repeats that to the end, or to the first character
with which no piece begins. Blanks and comments are skipped; a comment runs from `//` through the
line breaks that end its line.

A word of letters, digits, underscores and primes is a name, unless it is `Bool`.

`Piece.front_append` says that cutting loses nothing, and `Piece.front_text_ne_nil` that every
piece has a character, which is why scanning ends.
-/

namespace Stlc

/-- The number of bytes a text takes up in UTF-8. -/
def byteLength (cs : List Char) : Nat := cs.foldr (Char.utf8Size · + ·) 0

def isNameStart (c : Char) : Bool := c.isAlphanum || c == '_'

def isNameRest (c : Char) : Bool := isNameStart c || c == '\''

def isLineBreak (c : Char) : Bool := c == '\n' || c == '\r'

/-- A piece cut off the front of a text. -/
structure Piece where
  /-- The token that was read, or `none` for a piece that is skipped. -/
  token? : Option Token
  /-- What was cut off. -/
  text : List Char
  /-- What is left. -/
  rest : List Char

namespace Piece

/-- A name, or the keyword that is spelled like one. -/
def word (text : List Char) : Token :=
  if text = ['B', 'o', 'o', 'l'] then .bool else .ident (String.ofList text)

/-- Cuts the longest piece off the front of a text. -/
def front : List Char → Option Piece
  | [] => none
  | '(' :: cs => some ⟨some .lparen, ['('], cs⟩
  | ')' :: cs => some ⟨some .rparen, [')'], cs⟩
  | '-' :: '>' :: cs => some ⟨some .arrow, ['-', '>'], cs⟩
  | '.' :: cs => some ⟨some .dot, ['.'], cs⟩
  | ':' :: cs => some ⟨some .colon, [':'], cs⟩
  | '\\' :: cs => some ⟨some .lambda, ['\\'], cs⟩
  | '/' :: '/' :: cs =>
    let line := cs.takeWhile (!isLineBreak ·)
    let below := cs.dropWhile (!isLineBreak ·)
    some ⟨none, '/' :: '/' :: line ++ below.takeWhile isLineBreak, below.dropWhile isLineBreak⟩
  | c :: cs =>
    if isBlank c then some ⟨none, c :: cs.takeWhile isBlank, cs.dropWhile isBlank⟩
    else if isNameStart c then
      let text := c :: cs.takeWhile isNameRest
      some ⟨some (word text), text, cs.dropWhile isNameRest⟩
    else none

/-- Cutting loses nothing. -/
theorem front_append {cs : List Char} {p : Piece} (h : front cs = some p) :
    p.text ++ p.rest = cs := by
  unfold front at h
  split at h
  case h_1 => cases h
  case h_9 =>
    split at h
    · cases h; simp
    · split at h <;> cases h; simp
  all_goals cases h; simp

/-- No piece is empty. -/
theorem front_text_ne_nil {cs : List Char} {p : Piece} (h : front cs = some p) :
    p.text ≠ [] := by
  unfold front at h
  split at h
  case h_1 => cases h
  case h_9 =>
    split at h
    · cases h; simp
    · split at h <;> cases h; simp
  all_goals cases h; simp

/-- What is left is shorter than what there was. -/
theorem length_rest_lt {cs : List Char} {p : Piece} (h : front cs = some p) :
    p.rest.length < cs.length := by
  have hne := List.length_pos_iff.mpr (front_text_ne_nil h)
  rw [← front_append h, List.length_append]
  omega

end Piece

structure Scan where
  /-- The tokens read. -/
  lexemes : List Lexeme
  /-- The offset of the first character with which no piece begins. -/
  stuckAt? : Option Nat

namespace Scan

/-- Scans a text that begins at offset `pos`. -/
def scanFrom (pos : Nat) (cs : List Char) : Scan :=
  if cs = [] then ⟨[], none⟩
  else
    match _h : Piece.front cs with
    | none => ⟨[], some pos⟩
    | some p =>
      let stop := pos + byteLength p.text
      let later := scanFrom stop p.rest
      match p.token? with
      | none => later
      | some t => ⟨⟨t, ⟨pos, stop⟩⟩ :: later.lexemes, later.stuckAt?⟩
termination_by cs.length
decreasing_by exact Piece.length_rest_lt ‹_›

def ofString (source : String) : Scan := scanFrom 0 source.toList

end Scan

end Stlc
