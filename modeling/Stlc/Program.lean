import Stlc.Failure
import Stlc.Parse.Binding
import Stlc.Parse.Expr
import Stlc.Resolve
import Stlc.Term.Step
import Stlc.Typing

/-!
# Programs

A program is a source text whose free names are declared by a context. It is parsed, its names are
resolved, it is typed unless the mode says otherwise, and then it is evaluated; the first stage
that fails decides the failure.
-/

namespace Stlc

structure Mode where
  /-- The rule by which applications are typed. -/
  rule : ApplicationRule := .structural
  /-- Whether a program is typed before it is evaluated. -/
  checked : Bool := true

/-- A source text and the declarations of its free names. -/
structure Program where
  source : String
  context : Context

namespace Program

def expr (p : Program) : Except Failure Expr := (Expr.parse p.source).mapError .parse

def term (p : Program) : Except Failure Term := do
  let e ← p.expr
  (e.resolve p.context).mapError .resolve

def typed (p : Program) (rule : ApplicationRule) : Except Failure (Term × Ty) := do
  let t ← p.term
  let τ ← (t.typeOf rule p.context).mapError .typing
  return (t, τ)

/-- The term that is to be evaluated, with its type if the mode asks for one. -/
def ready (p : Program) (mode : Mode) : Except Failure (Term × Option Ty) :=
  if mode.checked then (p.typed mode.rule).map fun (t, τ) => (t, some τ)
  else p.term.map fun t => (t, none)

/-- What the program evaluates to in fewer than `fuel` steps, with the type it was checked at. -/
def evaluate (p : Program) (mode : Mode) (fuel : Nat) :
    Option (Except Failure (Term × Option Ty)) :=
  match p.ready mode with
  | .error e => some (.error e)
  | .ok (t, τ?) =>
    (t.evaluate fuel).map fun r => (r.mapError .evaluation).map fun v => (v, τ?)

/-- Every term on the way to what the program evaluates to, with the type it was checked at. -/
def trace (p : Program) (mode : Mode) (fuel : Nat) :
    Option (Except Failure (List Term × Option Ty)) :=
  match p.ready mode with
  | .error e => some (.error e)
  | .ok (t, τ?) =>
    (t.trace fuel).map fun r => (r.mapError .evaluation).map fun ts => (ts, τ?)

end Program

end Stlc
