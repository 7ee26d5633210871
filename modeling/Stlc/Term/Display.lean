import Stlc.Context
import Stlc.Term.Basic

/-!
# Writing nameless terms

A nameless term is written with names: a free variable by the name of its binding in the context, a
bound one by the name its abstraction carries. Where that name is already in scope the abstraction
gets primes until it is not, so that no binder hides another.

A name is used only if it leads back to the variable it stands for. A variable hidden by a later
binding of the context, or outside of it, is written as `#` and its index, which is not the text of
any term.
-/

namespace Stlc

/-- Appends primes to `name` until it is not among `taken`. -/
def freshName (taken : List String) (name : String) : String := go taken.length name
where
  /-- Appends at most `n` primes; as many as there are names taken suffice. -/
  go : Nat → String → String
    | 0, name => name
    | n + 1, name => if name ∈ taken then go n (name ++ "'") else name

namespace Term

inductive Position where
  | top
  | head
  | argument
deriving DecidableEq

/-- The name of a variable where `scope` is in force, if the name leads back to it. -/
def nameIn? (scope : Stack String) (i : Nat) : Option String := do
  let x ← scope.get? i
  guard (scope.findIdx? (· == x) = some i)
  return x

/-- Writes a term at a position, with the names in force around it. -/
def write (scope : Stack String) (pos : Position) : Term → String
  | var i _ => (nameIn? scope i).getD ("#" ++ toString i)
  | lam x τ t _ =>
    let x := freshName scope.entries x
    let text := "\\" ++ x ++ ":" ++ τ.toText ++ ". " ++ t.write (scope.push x) .top
    if pos = .top then text else "(" ++ text ++ ")"
  | app t₁ t₂ _ =>
    let text := t₁.write scope .head ++ " " ++ t₂.write scope .argument
    if pos = .argument then "(" ++ text ++ ")" else text

def display (Γ : Context) (t : Term) : String := t.write Γ.names .top

end Term

end Stlc
