import Stlc.Term.Shift

/-!
# Counting binders in words

`Term.shift` and `Term.subst` count the binders that they have passed in numbers without a bound.
`Term.instantiate` starts both at zero, so it would take a term that nests `indexLimit` abstractions
to notice. A caller who starts further up may: there the cutoff and the target are words, and
`Term.shiftWord` and `Term.substWord` add to them as words are added. What happens at the end of the
range depends on how the program was built (`Arithmetic`).
-/

namespace Stlc

def checkedAdd (a b : UInt64) : Option UInt64 :=
  if a.toNat + b.toNat < indexLimit then some (a + b) else none

theorem checkedAdd_eq_some_iff {a b c : UInt64} :
    checkedAdd a b = some c ↔ a.toNat + b.toNat = c.toNat := by
  have hc : c.toNat < indexLimit := c.toNat_lt
  have hmod : ∀ n < indexLimit, n % 2 ^ 64 = n := fun _ => Nat.mod_eq_of_lt
  rw [checkedAdd, Option.ite_none_right_eq_some, Option.some_inj, ← UInt64.toNat_inj,
    UInt64.toNat_add]
  constructor
  · rintro ⟨hlt, hsum⟩
    rwa [hmod _ hlt] at hsum
  · intro hsum
    rw [← hsum] at hc ⊢
    exact ⟨hc, hmod _ hc⟩

/-- Whether a sum that is no word stops the program, or is taken modulo `indexLimit`. With
`wrapping`, a target that was passed by the last word goes on at zero, where it is one of the
variables that the term binds itself. -/
inductive Arithmetic where
  | checked
  | wrapping

/-- Why there is no term. -/
inductive Stop where
  | unmovable (e : ShiftError)
  | overflow

def Arithmetic.next : Arithmetic → UInt64 → Except Stop UInt64
  | checked, n =>
    match checkedAdd n 1 with
    | some n => .ok n
    | none => .error .overflow
  | wrapping, n => .ok (n + 1)

namespace Term

/-- `shift` with a word for the cutoff. -/
def shiftWord (m : Arithmetic) (d : Int) (cutoff : UInt64) : Term → Except Stop Term
  | var i s =>
    if i < cutoff.toNat then .ok (var i s)
    else match shiftIndex i d with
      | some j => .ok (var j s)
      | none => .error (.unmovable ⟨i, d⟩)
  | lam x τ t s => do
    let cutoff ← m.next cutoff
    return lam x τ (← t.shiftWord m d cutoff) s
  | app t₁ t₂ s => do
    let t₁ ← t₁.shiftWord m d cutoff
    let t₂ ← t₂.shiftWord m d cutoff
    return app t₁ t₂ s

/-- `subst` with a word for the target. At an abstraction, the target is counted up before the
replacement is moved. -/
def substWord (m : Arithmetic) (t : Term) (target : UInt64) (u : Term) : Except Stop Term :=
  match t with
  | var i s => .ok (if i = target.toNat then u else var i s)
  | lam x τ t s => do
    let target ← m.next target
    let u ← u.shiftWord m 1 0
    return lam x τ (← t.substWord m target u) s
  | app t₁ t₂ s => do
    let t₁ ← t₁.substWord m target u
    let t₂ ← t₂.substWord m target u
    return app t₁ t₂ s

end Term

end Stlc
