import Stlc.Context
import Stlc.Term.Basic

/-!
# Resolving names

Resolution turns an expression into a nameless term. A name means the innermost abstraction that
binds it, or else the innermost binding of the context, and becomes the number of binders in
between. A name bound nowhere is an error, reported for the leftmost such name.
-/

namespace Stlc

structure UnboundName where
  name : String
  span : Span
deriving DecidableEq

def UnboundName.message (e : UnboundName) : String :=
  "variable '" ++ e.name ++ "' not found (at " ++ toString e.span.start ++ ".."
    ++ toString e.span.stop ++ ")"

namespace Expr

/-- Resolves an expression where the names of `scope` are in force. -/
def resolveIn (scope : Stack String) : Expr → Except UnboundName Term
  | var x s =>
    match scope.findIdx? (· == x) with
    | some i => .ok (.var i s)
    | none => .error ⟨x, s⟩
  | lam x τ e s => do return .lam x τ (← e.resolveIn (scope.push x)) s
  | app e₁ e₂ s => do
    let t₁ ← e₁.resolveIn scope
    let t₂ ← e₂.resolveIn scope
    return .app t₁ t₂ s

def resolve (Γ : Context) (e : Expr) : Except UnboundName Term := e.resolveIn Γ.names

end Expr

end Stlc
