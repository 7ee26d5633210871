import Stlc.Expr

/-!
# Nameless terms

A `Term` is a term whose variables are indices: a variable counts the abstractions between itself
and its binder, and goes on counting in the context once it has passed all of them. An abstraction
keeps the name it was written with, for display only.
-/

namespace Stlc

/-- A term whose variables are indices. -/
inductive Term where
  | var (index : Nat) (span : Span)
  | lam (name : String) (type : Ty) (body : Term) (span : Span)
  | app (fn arg : Term) (span : Span)
deriving DecidableEq

namespace Term

def former : Term → Former
  | var .. => .var
  | lam .. => .lam
  | app .. => .app

def span : Term → Span
  | var _ s => s
  | lam _ _ _ s => s
  | app _ _ s => s

/-- Equality of two terms, wherever they were read. Names kept for display count. -/
def sameAs : Term → Term → Bool
  | var i _, var j _ => i == j
  | lam x σ t _, lam y τ u _ => x == y && σ.sameAs τ && t.sameAs u
  | app t₁ t₂ _, app u₁ u₂ _ => t₁.sameAs u₁ && t₂.sameAs u₂
  | _, _ => false

def eraseSpans : Term → Term
  | var i _ => var i .nowhere
  | lam x τ t _ => lam x τ.eraseSpans t.eraseSpans .nowhere
  | app t₁ t₂ _ => app t₁.eraseSpans t₂.eraseSpans .nowhere

/-- `sameAs` is equality once the spans are forgotten. -/
theorem sameAs_iff (t u : Term) : t.sameAs u ↔ t.eraseSpans = u.eraseSpans := by
  induction t generalizing u with
  | var i s => cases u <;> simp [sameAs, eraseSpans]
  | lam x τ t s ih => cases u <;> simp [sameAs, eraseSpans, Ty.sameAs_iff, ih, and_assoc]
  | app t₁ t₂ s ih₁ ih₂ => cases u <;> simp [sameAs, eraseSpans, ih₁, ih₂]

/-- Abstractions are the only values; a variable is stuck. -/
def isValue : Term → Bool
  | lam .. => true
  | _ => false

def body? : Term → Option Term
  | lam _ _ t _ => some t
  | _ => none

end Term

end Stlc
