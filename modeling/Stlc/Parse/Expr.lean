import Stlc.Expr
import Stlc.Parse.Ty

/-!
# Reading expressions

    Term ::= `\` name `:` Type `.` Term | App
    App  ::= App Atom | Atom
    Atom ::= name | `(` Term `)`

Application associates to the left, an abstraction reaches as far right as it can, and is an
argument or the head of an application only in parentheses. The span of an abstraction or of an
application runs from its first token to its last one, parentheses around its parts included;
parentheses around a term are not part of that term's span.
-/

namespace Stlc

namespace Expr

/-- A complete expression that may still turn out to be the head of an application. With its
parentheses it reaches over `extent`. -/
structure Spine where
  expr : Expr
  extent : Span
deriving DecidableEq

namespace Spine

/-- Puts an atom after what may stand before it. The atom, with its parentheses, reaches over
`extent`. -/
def extend (head? : Option Spine) (atom : Expr) (extent : Span) : Spine :=
  match head? with
  | none => ⟨atom, extent⟩
  | some head =>
    let extent := ⟨head.extent.start, extent.stop⟩
    ⟨.app head.expr atom extent, extent⟩

end Spine

/-- What is open around the point an expression has been read to. -/
inductive Frame where
  /-- A parenthesis, opened at `start`. What it encloses is an argument of `head?`, if there is
  one. -/
  | paren (head? : Option Spine) (start : Nat)
  /-- An abstraction that begins at `start`, read up to its body. -/
  | body (start : Nat) (name : String) (type : Ty)
deriving DecidableEq

namespace Frame

def isParen : Frame → Bool
  | paren .. => true
  | body .. => false

/-- Builds the abstractions that end where the expression `e` ends, at `stop`, down to the
innermost parenthesis. -/
def close : List Frame → Expr → Nat → Expr × List Frame
  | body start x τ :: fs, e, stop => close fs (.lam x τ e ⟨start, stop⟩) stop
  | fs, e, _ => (e, fs)

end Frame

/-- How far an expression has been read, the innermost frame first. -/
inductive Progress where
  /-- A term comes next. -/
  | start (frames : List Frame)
  /-- Some atoms have been read. -/
  | after (frames : List Frame) (spine : Spine)
  /-- The name of an abstraction that begins at `start` comes next. -/
  | binder (frames : List Frame) (start : Nat)
  /-- The name has been read, and its colon comes next. -/
  | colon (frames : List Frame) (start : Nat) (name : String)
  /-- The colon has been read, and the type so far. -/
  | type (frames : List Frame) (start : Nat) (name : String) (type : Ty.Progress)
deriving DecidableEq

namespace Progress

def step : Progress → Lexeme → Option Progress
  | start fs, ⟨.ident x, s⟩ => some (after fs (.extend none (.var x s) s))
  | start fs, ⟨.lparen, s⟩ => some (start (.paren none s.start :: fs))
  | start fs, ⟨.lambda, s⟩ => some (binder fs s.start)
  | after fs head, ⟨.ident x, s⟩ => some (after fs (.extend (some head) (.var x s) s))
  | after fs head, ⟨.lparen, s⟩ => some (start (.paren (some head) s.start :: fs))
  | after fs head, ⟨.rparen, s⟩ =>
    match Frame.close fs head.expr head.extent.stop with
    | (e, .paren head? first :: fs) => some (after fs (.extend head? e ⟨first, s.stop⟩))
    | _ => none
  | binder fs first, ⟨.ident x, _⟩ => some (colon fs first x)
  | colon fs first x, ⟨.colon, _⟩ => some (type fs first x (.start []))
  | type fs first x τ, ⟨.dot, _⟩ =>
    τ.result?.map fun τ => .start (.body first x τ :: fs)
  | type fs first x τ, l => (τ.step l).map (type fs first x)
  | _, _ => none

def result? : Progress → Option Expr
  | after fs head =>
    match Frame.close fs head.expr head.extent.stop with
    | (e, []) => some e
    | _ => none
  | _ => none

def expected : Progress → Option Terminal → List Terminal
  | start _, _ => [.ident, .lparen, .lambda]
  | after fs _, next =>
    if fs.any Frame.isParen then expectedAfter [.ident, .lparen] (some .rparen) none next
    else expectedAfter [.ident, .lparen] none (some .rparen) next
  | binder .., _ => [.ident]
  | colon .., _ => [.colon]
  | type _ _ _ τ, next => τ.expected (some .dot) next

end Progress

def reader : Reader Progress Expr where
  start := .start []
  step := Progress.step
  result? := Progress.result?
  expected := Progress.expected

def parse (source : String) : Except SyntaxError Expr := reader.parse source

end Expr

end Stlc
