import Stlc.Stack
import Stlc.Ty

/-!
# Contexts

A context declares the free variables of a term. Each binding has a name and may have a type;
a free variable without a type can be resolved and evaluated, and only the typing rules ask for
more. A name may be bound repeatedly, and the innermost binding of it is the one that counts.
-/

namespace Stlc

inductive Binding where
  | untyped (name : String)
  | typed (name : String) (type : Ty)
deriving DecidableEq

namespace Binding

inductive Former where
  | untyped
  | typed
deriving DecidableEq

def former : Binding → Former
  | untyped _ => .untyped
  | typed .. => .typed

def name : Binding → String
  | untyped x => x
  | typed x _ => x

def type? : Binding → Option Ty
  | untyped _ => none
  | typed _ τ => some τ

def sameAs : Binding → Binding → Bool
  | untyped x, untyped y => x == y
  | typed x σ, typed y τ => x == y && σ.sameAs τ
  | _, _ => false

def eraseSpans : Binding → Binding
  | untyped x => untyped x
  | typed x τ => typed x τ.eraseSpans

/-- `sameAs` is equality once the spans are forgotten. -/
theorem sameAs_iff (b c : Binding) : b.sameAs c ↔ b.eraseSpans = c.eraseSpans := by
  cases b <;> cases c <;> simp [sameAs, eraseSpans, Ty.sameAs_iff]

end Binding

/-- The declarations in force, innermost first. -/
abbrev Context := Stack Binding

namespace Context

/-- The names that are bound, repetitions included. -/
def names (Γ : Context) : Stack String := Γ.map Binding.name

def indexOf? (Γ : Context) (x : String) : Option Nat := Γ.findIdx? (·.name == x)

def sameAs (Γ Δ : Context) : Bool := go Γ.entries Δ.entries
where
  /-- Compares two lists of bindings entry by entry. -/
  go : List Binding → List Binding → Bool
    | [], [] => true
    | b :: bs, c :: cs => b.sameAs c && go bs cs
    | _, _ => false

end Context

end Stlc
