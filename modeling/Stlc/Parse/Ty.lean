import Stlc.Parse.Reader
import Stlc.Ty

/-!
# Reading types

    Type ::= Atom `->` Type | Atom
    Atom ::= `Bool` | `(` Type `)`

The span of an arrow runs from its first token to its last one, parentheses around either side
included; parentheses around a type are not part of that type's span.
-/

namespace Stlc

namespace Ty

/-- What is open around the point a type has been read to. -/
inductive Frame where
  /-- A parenthesis, opened at `start`. -/
  | paren (start : Nat)
  /-- An arrow whose input, which begins at `start`, has been read. -/
  | output (start : Nat) (input : Ty)
deriving DecidableEq

namespace Frame

def isParen : Frame → Bool
  | paren _ => true
  | output .. => false

/-- Builds the arrows that end where the type `τ` ends, at `stop`, down to the innermost
parenthesis. -/
def close : List Frame → Ty → Nat → Ty × List Frame
  | output start input :: fs, τ, stop => close fs (.arrow input τ ⟨start, stop⟩) stop
  | fs, τ, _ => (τ, fs)

end Frame

/-- How far a type has been read, the innermost frame first. -/
inductive Progress where
  /-- An atom comes next. -/
  | start (frames : List Frame)
  /-- An atom has been read; with its parentheses it reaches over `extent`. -/
  | after (frames : List Frame) (atom : Ty) (extent : Span)
deriving DecidableEq

namespace Progress

def enclosed : Progress → Bool
  | start fs => fs.any Frame.isParen
  | after fs _ _ => fs.any Frame.isParen

def step : Progress → Lexeme → Option Progress
  | start fs, ⟨.bool, s⟩ => some (after fs (.bool s) s)
  | start fs, ⟨.lparen, s⟩ => some (start (.paren s.start :: fs))
  | after fs τ extent, ⟨.arrow, _⟩ => some (start (.output extent.start τ :: fs))
  | after fs τ extent, ⟨.rparen, s⟩ =>
    match Frame.close fs τ extent.stop with
    | (τ, .paren first :: fs) => some (after fs τ ⟨first, s.stop⟩)
    | _ => none
  | _, _ => none

def result? : Progress → Option Ty
  | after fs τ extent =>
    match Frame.close fs τ extent.stop with
    | (τ, []) => some τ
    | _ => none
  | start _ => none

/-- What may come next, where a type outside of parentheses is ended by `ender`. -/
def expected (ender : Option Terminal) (p : Progress) (next : Option Terminal) : List Terminal :=
  match p with
  | start _ => [.lparen, .bool]
  | after .. =>
    if p.enclosed then expectedAfter [.arrow] (some .rparen) ender next
    else expectedAfter [.arrow] ender (some .rparen) next

end Progress

/-- Reads a type that fills its text. -/
def reader : Reader Progress Ty where
  start := .start []
  step := Progress.step
  result? := Progress.result?
  expected := Progress.expected none

def parse (source : String) : Except SyntaxError Ty := reader.parse source

end Ty

end Stlc
