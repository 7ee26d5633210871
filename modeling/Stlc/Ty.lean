import Stlc.Span

/-!
# Types

The types are the base type `Bool` and the arrows between types. Every node remembers the span it
was read from. Two notions of equality follow: `=` on `Ty` compares spans too, while `sameAs`
looks through them and is the equality that the typing rules use.
-/

namespace Stlc

inductive Ty where
  | bool (span : Span)
  | arrow (input output : Ty) (span : Span)
deriving DecidableEq

namespace Ty

inductive Former where
  | bool
  | arrow
deriving DecidableEq

def former : Ty → Former
  | bool _ => .bool
  | arrow .. => .arrow

def isArrow (τ : Ty) : Bool := τ.former == .arrow

def span : Ty → Span
  | bool s => s
  | arrow _ _ s => s

/-- Equality of two types, wherever they were read. -/
def sameAs : Ty → Ty → Bool
  | bool _, bool _ => true
  | arrow a b _, arrow a' b' _ => a.sameAs a' && b.sameAs b'
  | _, _ => false

/-- The type with every span forgotten. -/
def eraseSpans : Ty → Ty
  | bool _ => bool .nowhere
  | arrow a b _ => arrow a.eraseSpans b.eraseSpans .nowhere

/-- `sameAs` is equality once the spans are forgotten. -/
theorem sameAs_iff (σ τ : Ty) : σ.sameAs τ ↔ σ.eraseSpans = τ.eraseSpans := by
  induction σ generalizing τ with
  | bool s => cases τ <;> simp [sameAs, eraseSpans]
  | arrow a b s iha ihb => cases τ <;> simp [sameAs, eraseSpans, iha, ihb]

/-- Writes a type. The arrow associates to the right, so only an input that is itself an arrow
needs parentheses. -/
def toText : Ty → String
  | bool _ => "Bool"
  | arrow a b _ => (if a.isArrow then "(" ++ a.toText ++ ")" else a.toText) ++ " -> " ++ b.toText

instance : ToString Ty := ⟨toText⟩

end Ty

end Stlc
