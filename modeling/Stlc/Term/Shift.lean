import Stlc.Term.Basic

/-!
# Shifting and substitution

Moving a term under or out of binders renumbers its free variables: `shift d c` adds `d` to every
variable that counts past `c` binders. `subst k u` puts `u` in the place of the variable `k`.

Indices lie below `indexLimit`. A shift that would leave that range, at either end, is an error
rather than a term, and the error names the first such variable from the left.
-/

namespace Stlc

/-- Indices are words of 64 bits. -/
def indexLimit : Nat := UInt64.size

/-- The index `i` moved by `d`, if that is an index. -/
def shiftIndex (i : Nat) (d : Int) : Option Nat :=
  if 0 ≤ i + d ∧ i + d < indexLimit then some (i + d).toNat else none

/-- A variable that cannot be moved by the amount asked for. -/
structure ShiftError where
  index : Nat
  amount : Int
deriving DecidableEq

namespace ShiftError

def reason (e : ShiftError) : String :=
  "shifting index " ++ toString e.index ++ " by " ++ toString e.amount ++ " leaves no binder"

/-- The full report: no term that was read from a text gets here. -/
def message (e : ShiftError) : String := "illegal error (bug): " ++ e.reason

end ShiftError

namespace Term

/-- Adds `d` to every variable that counts past `cutoff` binders. -/
def shift (d : Int) (cutoff : Nat) : Term → Except ShiftError Term
  | var i s =>
    if i < cutoff then .ok (var i s)
    else match shiftIndex i d with
      | some j => .ok (var j s)
      | none => .error ⟨i, d⟩
  | lam x τ t s => do return lam x τ (← t.shift d (cutoff + 1)) s
  | app t₁ t₂ s => do
    let t₁ ← t₁.shift d cutoff
    let t₂ ← t₂.shift d cutoff
    return app t₁ t₂ s

/-- Replaces the variable `target` by `u`. The replacement keeps its own spans, and is shifted
whenever it passes an abstraction, whether the variable occurs there or not. -/
def subst (t : Term) (target : Nat) (u : Term) : Except ShiftError Term :=
  match t with
  | var i s => .ok (if i = target then u else var i s)
  | lam x τ t s => do
    let u ← u.shift 1 0
    return lam x τ (← t.subst (target + 1) u) s
  | app t₁ t₂ s => do
    let t₁ ← t₁.subst target u
    let t₂ ← t₂.subst target u
    return app t₁ t₂ s

/-- The body of an abstraction with its variable replaced by an argument: the argument is moved
under the binder, put in place, and the binder taken away. -/
def instantiate (body arg : Term) : Except ShiftError Term := do
  let arg ← arg.shift 1 0
  let body ← body.subst 0 arg
  body.shift (-1) 0

end Term

end Stlc
