import Stlc.Proofs.Outcome
import Stlc.Term.Shift

/-!
# Substitution for all variables at once

`shift`, `subst` and `instantiate` renumber variables in passes, and give up where an index leaves
its range. This module has the operations that they compute when they do not give up, and the laws
of those:

* `Term.rename` puts another index in the place of every free variable, `Term.substAll` a term;
* `Term.contract` is the one-pass counterpart of `instantiate`.

Both kinds of maps are extended under a binder by `lift`. A substitution is given the span of the
occurrence that it replaces, so that the variables it only renumbers stay where they were read.

## Key lemmas

* `Term.substAll_substAll` — two substitutions in a row are one.
* `Term.substAll_lift_contract` — a pending substitution and a contraction are one substitution.
* `Term.shift_eq_ok`, `Term.subst_eq_ok`, `Term.instantiate_eq_ok` — what the passes compute.
-/

namespace Stlc

/-! ## Renamings -/

/-- Which variable each free variable becomes. -/
abbrev Renaming := Nat → Nat

def Renaming.lift (ρ : Renaming) : Renaming
  | 0 => 0
  | i + 1 => ρ i + 1

/-- Makes room for `d` variables behind the first `c`. -/
def Renaming.raise (d c : Nat) : Renaming := fun i => if i < c then i else i + d

theorem Renaming.lift_raise (d c : Nat) : (raise d c).lift = raise d (c + 1) := by
  funext i
  cases i with
  | zero => simp [lift, raise]
  | succ i =>
      simp only [lift, raise]
      split <;> split <;> omega

theorem Renaming.raise_zero (d : Nat) : raise d 0 = (· + d) := by
  funext i
  simp [raise]

namespace Term

def rename (ρ : Renaming) : Term → Term
  | var i s => var (ρ i) s
  | lam x τ t s => lam x τ (t.rename ρ.lift) s
  | app t u s => app (t.rename ρ) (u.rename ρ) s

end Term

/-! ## Substitutions -/

/-- What is put in the place of each free variable, given where that occurrence was read. -/
abbrev Substitution := Nat → Span → Term

namespace Substitution

def lift (σ : Substitution) : Substitution
  | 0, s => .var 0 s
  | i + 1, s => (σ i s).rename (· + 1)

def single (k : Nat) (u : Term) : Substitution := fun i s => if i = k then u else .var i s

/-- Puts `u` in front of what a substitution has for the variables. -/
def cons (u : Term) (σ : Substitution) : Substitution
  | 0, _ => u
  | i + 1, s => σ i s

end Substitution

namespace Term

def substAll (σ : Substitution) : Term → Term
  | var i s => σ i s
  | lam x τ t s => lam x τ (t.substAll σ.lift) s
  | app t u s => app (t.substAll σ) (u.substAll σ) s

/-- The body of an abstraction with its variable replaced by an argument, the abstraction gone. -/
def contract (body arg : Term) : Term := body.substAll (.cons arg .var)

/-! ## Laws -/

theorem rename_rename (t : Term) (ρ ρ' : Renaming) :
    (t.rename ρ).rename ρ' = t.rename (fun i => ρ' (ρ i)) := by
  induction t generalizing ρ ρ' with
  | var i s => rfl
  | lam x τ t s ih =>
      simp only [rename, ih]
      congr 2
      funext i
      cases i <;> rfl
  | app t u s iht ihu => simp only [rename, iht, ihu]

theorem substAll_rename (t : Term) (ρ : Renaming) (σ : Substitution) :
    (t.rename ρ).substAll σ = t.substAll (fun i => σ (ρ i)) := by
  induction t generalizing ρ σ with
  | var i s => rfl
  | lam x τ t s ih =>
      simp only [rename, substAll, ih]
      congr 2
      funext i
      cases i <;> rfl
  | app t u s iht ihu => simp only [rename, substAll, iht, ihu]

theorem rename_substAll (t : Term) (σ : Substitution) (ρ : Renaming) :
    (t.substAll σ).rename ρ = t.substAll (fun i s => (σ i s).rename ρ) := by
  induction t generalizing σ ρ with
  | var i s => rfl
  | lam x τ t s ih =>
      simp only [rename, substAll, ih]
      congr 2
      funext i s
      cases i with
      | zero => rfl
      | succ i => simp only [Substitution.lift, rename_rename, Renaming.lift]
  | app t u s iht ihu => simp only [rename, substAll, iht, ihu]

theorem substAll_substAll (t : Term) (σ θ : Substitution) :
    (t.substAll σ).substAll θ = t.substAll (fun i s => (σ i s).substAll θ) := by
  induction t generalizing σ θ with
  | var i s => rfl
  | lam x τ t s ih =>
      simp only [substAll, ih]
      congr 2
      funext i s
      cases i with
      | zero => rfl
      | succ i =>
          simp only [Substitution.lift, substAll_rename, rename_substAll]
          rfl
  | app t u s iht ihu => simp only [substAll, iht, ihu]

theorem substAll_var (t : Term) : t.substAll .var = t := by
  induction t with
  | var i s => rfl
  | lam x τ t s ih =>
      have hlift : Substitution.lift .var = .var := by
        funext i s
        cases i <;> rfl
      rw [substAll, hlift, ih]
  | app t u s iht ihu => rw [substAll, iht, ihu]

theorem rename_eq_substAll (t : Term) (ρ : Renaming) :
    t.rename ρ = t.substAll (fun i => .var (ρ i)) := by
  induction t generalizing ρ with
  | var i s => rfl
  | lam x τ t s ih =>
      simp only [rename, substAll, ih]
      congr 2
      funext i s
      cases i <;> rfl
  | app t u s iht ihu => simp only [rename, substAll, iht, ihu]

/-- A contraction under a pending substitution substitutes the argument along with the rest. -/
theorem substAll_lift_contract (t u : Term) (σ : Substitution) :
    (t.substAll σ.lift).contract u = t.substAll (.cons u σ) := by
  rw [contract, substAll_substAll]
  congr 1
  funext i s
  cases i with
  | zero => rfl
  | succ i =>
      simp only [Substitution.lift, substAll_rename, Substitution.cons]
      exact substAll_var _

/-- A contraction is substituted part by part. -/
theorem substAll_contract (t u : Term) (σ : Substitution) :
    (t.contract u).substAll σ = (t.substAll σ.lift).contract (u.substAll σ) := by
  rw [substAll_lift_contract, contract, substAll_substAll]
  congr 1
  funext i s
  cases i <;> rfl

/-! ## What the passes compute -/

theorem shiftIndex_eq_some_iff {i j : Nat} {d : Int} :
    shiftIndex i d = some j ↔ (j : Int) = i + d ∧ j < indexLimit := by
  unfold shiftIndex
  split
  · rw [Option.some.injEq]
    omega
  · simp only [reduceCtorEq, false_iff]
    omega

/-- A shift outwards renames. -/
theorem shift_eq_ok {t u : Term} {d c : Nat} (h : t.shift d c = .ok u) :
    u = t.rename (.raise d c) := by
  induction t generalizing u c with
  | var i s =>
      simp only [shift] at h
      by_cases hi : i < c
      · rw [if_pos hi] at h
        cases h
        rw [rename, Renaming.raise, if_pos hi]
      · rw [if_neg hi] at h
        split at h
        · next j hj =>
            cases h
            have hij : j = i + d := by
              have := (shiftIndex_eq_some_iff.mp hj).1
              omega
            rw [rename, Renaming.raise, if_neg hi, hij]
        · cases h
  | lam x τ t s ih =>
      obtain ⟨t', ht, rfl⟩ := bind_pure_eq_ok_iff.mp h
      rw [rename, Renaming.lift_raise, ← ih ht]
  | app t₁ t₂ s ih₁ ih₂ =>
      obtain ⟨t₁', t₂', h₁, h₂, rfl⟩ := bind_bind_pure_eq_ok_iff.mp h
      rw [rename, ← ih₁ h₁, ← ih₂ h₂]

/-- A shift inwards takes back the renaming that made room for one variable. -/
theorem shift_neg_one_eq_ok {t u : Term} {c : Nat}
    (h : (t.rename (.raise 1 c)).shift (-1) c = .ok u) : u = t := by
  induction t generalizing u c with
  | var i s =>
      simp only [rename, shift, Renaming.raise] at h
      -- The renaming has left `i` alone or moved it up by one, and the shift sees which.
      by_cases hi : i < c
      · rw [if_pos hi, if_pos hi] at h
        cases h
        rfl
      · rw [if_neg hi, if_neg (by omega)] at h
        split at h
        · next j hj =>
            cases h
            have hij : j = i := by
              have := (shiftIndex_eq_some_iff.mp hj).1
              omega
            rw [hij]
        · cases h
  | lam x τ t s ih =>
      rw [rename, Renaming.lift_raise] at h
      obtain ⟨t', ht, rfl⟩ := bind_pure_eq_ok_iff.mp h
      rw [ih ht]
  | app t₁ t₂ s ih₁ ih₂ =>
      obtain ⟨t₁', t₂', h₁, h₂, rfl⟩ := bind_bind_pure_eq_ok_iff.mp h
      rw [ih₁ h₁, ih₂ h₂]

/-- The replacement of one variable goes under a binder as `subst` carries it there. -/
theorem lift_single (k : Nat) (u : Term) :
    (Substitution.single k u).lift = .single (k + 1) (u.rename (.raise 1 0)) := by
  funext i s
  cases i with
  | zero => simp [Substitution.lift, Substitution.single]
  | succ i =>
      by_cases hi : i = k
      · simp [Substitution.lift, Substitution.single, hi, Renaming.raise_zero]
      · simp [Substitution.lift, Substitution.single, hi, rename]

/-- `subst` replaces one variable. -/
theorem subst_eq_ok {t u v : Term} {k : Nat} (h : t.subst k u = .ok v) :
    v = t.substAll (.single k u) := by
  induction t generalizing k u v with
  | var i s =>
      cases h
      rfl
  | lam x τ t s ih =>
      -- The replacement is shifted at every binder, which is what lifting does to it.
      obtain ⟨u', hu, h⟩ := bind_eq_ok_iff.mp h
      obtain ⟨t', ht, rfl⟩ := bind_pure_eq_ok_iff.mp h
      rw [substAll, lift_single, ← shift_eq_ok (d := 1) hu, ← ih ht]
  | app t₁ t₂ s ih₁ ih₂ =>
      obtain ⟨t₁', t₂', h₁, h₂, rfl⟩ := bind_bind_pure_eq_ok_iff.mp h
      rw [substAll, ← ih₁ h₁, ← ih₂ h₂]

/-- After the first two passes of an instantiation, all that is left to do is to take back the room
for one variable. -/
theorem substAll_single_raise (t u : Term) :
    t.substAll (.single 0 (u.rename (.raise 1 0))) = (t.contract u).rename (.raise 1 0) := by
  rw [contract, rename_substAll]
  congr 1
  funext i s
  cases i with
  | zero => rfl
  | succ i => simp [Substitution.single, Substitution.cons, rename, Renaming.raise_zero]

/-- The three passes of an instantiation contract. -/
theorem instantiate_eq_ok {t u v : Term} (h : t.instantiate u = .ok v) : v = t.contract u := by
  obtain ⟨u', hu, h⟩ := bind_eq_ok_iff.mp h
  obtain ⟨t', ht, h⟩ := bind_eq_ok_iff.mp h
  rw [subst_eq_ok ht, shift_eq_ok (d := 1) hu, substAll_single_raise] at h
  exact shift_neg_one_eq_ok h

end Term

end Stlc
