import Stlc.Term.Shift

/-!
# Reduction, call by value

`step` performs one reduction: the function position is reduced first, then the argument, and an
abstraction applied to an abstraction is instantiated. Nothing is reduced under an abstraction, and
an application whose function is stuck is stuck, whatever its argument.

Reduction need not end, so whatever iterates `step` takes a bound on the number of steps. Running
out of it is the answer `none`, which is neither a result nor an error.
-/

namespace Stlc

namespace Term

/-- One reduction. The answer is `none` if no rule applies. -/
def step : Term → Except ShiftError (Option Term)
  | app fn arg s =>
    match fn with
    | lam x τ body s' =>
      if arg.isValue then return some (← body.instantiate arg)
      else return (← arg.step).map fun arg => app (lam x τ body s') arg s
    | fn => return (← fn.step).map fun fn => app fn arg s
  | _ => .ok none

/-- Reduces a term until no rule applies, in fewer than `fuel` steps. -/
def evaluate (fuel : Nat) (t : Term) : Option (Except ShiftError Term) :=
  match fuel with
  | 0 => none
  | fuel + 1 =>
    match t.step with
    | .error e => some (.error e)
    | .ok none => some (.ok t)
    | .ok (some u) => evaluate fuel u

/-- All terms from `t` to where `evaluate` ends, both included. -/
def trace (fuel : Nat) (t : Term) : Option (Except ShiftError (List Term)) :=
  match fuel with
  | 0 => none
  | fuel + 1 =>
    match t.step with
    | .error e => some (.error e)
    | .ok none => some (.ok [t])
    | .ok (some u) => (trace fuel u).map fun r => r.map (t :: ·)

end Term

/-- A reduction sequence that is produced on demand: the term it has reached, or `none` once it has
ended. -/
structure Reduction where
  current : Option Term

namespace Reduction

def ofTerm (t : Term) : Reduction := ⟨some t⟩

/-- The next item of the sequence. A term that fails to reduce is reported once, and ends the
sequence as a term without a reduction does. -/
def next (r : Reduction) : Option (Except ShiftError Term) × Reduction :=
  match r.current with
  | none => (none, ⟨none⟩)
  | some t =>
    match t.step with
    | .error e => (some (.error e), ⟨none⟩)
    | .ok none => (none, ⟨none⟩)
    | .ok (some u) => (some (.ok u), ⟨some u⟩)

def take (n : Nat) (r : Reduction) : List (Except ShiftError Term) :=
  match n with
  | 0 => []
  | n + 1 =>
    match r.next with
    | (none, _) => []
    | (some item, r) => item :: take n r

end Reduction

end Stlc
