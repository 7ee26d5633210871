import Stlc.Ty

/-!
# Source expressions

An `Expr` is a term as it is written: variables are names. Every node remembers the span it was
read from, and `sameAs` compares two expressions without looking at spans.
-/

namespace Stlc

/-- A term whose variables are names. -/
inductive Expr where
  | var (name : String) (span : Span)
  | lam (name : String) (type : Ty) (body : Expr) (span : Span)
  | app (fn arg : Expr) (span : Span)
deriving DecidableEq

/-- The three ways to build a term, with names or without. -/
inductive Term.Former where
  | var
  | lam
  | app
deriving DecidableEq

namespace Expr

def former : Expr → Term.Former
  | var .. => .var
  | lam .. => .lam
  | app .. => .app

def span : Expr → Span
  | var _ s => s
  | lam _ _ _ s => s
  | app _ _ s => s

def sameAs : Expr → Expr → Bool
  | var x _, var y _ => x == y
  | lam x σ e _, lam y τ f _ => x == y && σ.sameAs τ && e.sameAs f
  | app e₁ e₂ _, app f₁ f₂ _ => e₁.sameAs f₁ && e₂.sameAs f₂
  | _, _ => false

def eraseSpans : Expr → Expr
  | var x _ => var x .nowhere
  | lam x τ e _ => lam x τ.eraseSpans e.eraseSpans .nowhere
  | app e₁ e₂ _ => app e₁.eraseSpans e₂.eraseSpans .nowhere

/-- `sameAs` is equality once the spans are forgotten. -/
theorem sameAs_iff (e f : Expr) : e.sameAs f ↔ e.eraseSpans = f.eraseSpans := by
  induction e generalizing f with
  | var x s => cases f <;> simp [sameAs, eraseSpans]
  | lam x τ e s ih => cases f <;> simp [sameAs, eraseSpans, Ty.sameAs_iff, ih, and_assoc]
  | app e₁ e₂ s ih₁ ih₂ => cases f <;> simp [sameAs, eraseSpans, ih₁, ih₂]

end Expr

end Stlc
