import Stlc.Proofs.SubstitutionLaws
import Stlc.Term.Word

/-!
# Counts that stay in range

`Term.shiftWord` and `Term.substWord` agree with `Term.shift` and `Term.subst` as long as the cutoff
or the target, together with the nesting of the term, stays below `indexLimit`. Checked arithmetic
gives no term where it does not, so whatever it gives is what the passes without a bound give, and
what wrapping arithmetic gives as well. The laws of `subst` in `Stlc.Proofs.SubstitutionLaws` carry
over from there.

## Key lemmas

* `Term.shiftWord_eq`, `Term.substWord_eq` — where the count stays in range, either arithmetic does
  what `shift` and `subst` do.
* `Term.shiftWord_checked_eq_ok_iff`, `Term.substWord_checked_eq_ok_iff` — when checked arithmetic
  gives a term, and which.
* `Term.instantiateWord_eq` — `instantiate` starts both counts at zero, and loses nothing.

The main statement is `substitutions_commute`.
-/

namespace Stlc

namespace Arithmetic

theorem next_of_lt (m : Arithmetic) {n : UInt64} (h : n.toNat + 1 < indexLimit) :
    m.next n = .ok (n + 1) ∧ (n + 1).toNat = n.toNat + 1 := by
  have hsum : (n + 1).toNat = n.toNat + 1 := by
    rw [UInt64.toNat_add]
    exact Nat.mod_eq_of_lt h
  refine ⟨?_, hsum⟩
  cases m with
  | checked => rw [next, checkedAdd_eq_some_iff.mpr hsum.symm]
  | wrapping => rfl

theorem toNat_of_next_checked {n n' : UInt64} (h : checked.next n = .ok n') :
    n'.toNat = n.toNat + 1 := by
  rw [next] at h
  split at h
  · next hsum =>
      cases h
      exact (checkedAdd_eq_some_iff.mp hsum).symm
  · cases h

end Arithmetic

namespace Term

/-! ## Shifting -/

theorem shiftWord_eq {m : Arithmetic} {t : Term} {d : Int} {c : UInt64}
    (hc : c.toNat + t.depth < indexLimit) :
    t.shiftWord m d c = (t.shift d c.toNat).mapError .unmovable := by
  induction t generalizing c with
  | var i s =>
      rw [shiftWord, shift]
      split
      · rfl
      · cases shiftIndex i d <;> rfl
  | lam x τ t s ih =>
      rw [depth] at hc
      obtain ⟨hnext, hsum⟩ := m.next_of_lt (n := c) (by omega)
      rw [shiftWord, shift, hnext, mapError_bind, ← hsum, ← ih (by omega)]
      rfl
  | app t₁ t₂ s ih₁ ih₂ =>
      rw [depth] at hc
      rw [shiftWord, shift, mapError_bind, ← ih₁ (by omega)]
      congr 1
      funext t₁'
      rw [mapError_bind, ← ih₂ (by omega)]
      rfl

theorem shiftWord_zero_eq {m : Arithmetic} {t : Term} {d : Int} (h : t.depth < indexLimit) :
    t.shiftWord m d 0 = (t.shift d 0).mapError .unmovable := by
  apply shiftWord_eq
  rwa [UInt64.toNat_zero, Nat.zero_add]

theorem lt_of_shiftWord_checked {t u : Term} {d : Int} {c : UInt64}
    (h : t.shiftWord .checked d c = .ok u) : c.toNat + t.depth < indexLimit := by
  induction t generalizing c u with
  | var i s => exact c.toNat_lt
  | lam x τ t s ih =>
      obtain ⟨c', hnext, h⟩ := bind_eq_ok_iff.mp h
      obtain ⟨t', ht, _⟩ := bind_pure_eq_ok_iff.mp h
      have hsum := Arithmetic.toNat_of_next_checked hnext
      have hlt := ih ht
      rw [depth]
      omega
  | app t₁ t₂ s ih₁ ih₂ =>
      obtain ⟨t₁', t₂', h₁, h₂, _⟩ := bind_bind_pure_eq_ok_iff.mp h
      have hlt₁ := ih₁ h₁
      have hlt₂ := ih₂ h₂
      rw [depth]
      omega

theorem shiftWord_checked_eq_ok_iff {t u : Term} {d : Int} {c : UInt64} :
    t.shiftWord .checked d c = .ok u ↔
      t.shift d c.toNat = .ok u ∧ c.toNat + t.depth < indexLimit := by
  constructor
  · intro h
    have hlt := lt_of_shiftWord_checked h
    rw [shiftWord_eq hlt] at h
    exact ⟨mapError_eq_ok_iff.mp h, hlt⟩
  · rintro ⟨h, hlt⟩
    rw [shiftWord_eq hlt]
    exact mapError_eq_ok_iff.mpr h

/-! ## Substituting -/

/-- The replacement is shifted at the first abstraction of `t`, if there is one, and then the cutoff
of that shift is counted as well. -/
theorem substWord_eq {m : Arithmetic} {t u : Term} {k : UInt64}
    (hk : k.toNat + t.depth < indexLimit) (hu : 0 < t.depth → u.depth < indexLimit) :
    t.substWord m k u = (t.subst k.toNat u).mapError .unmovable := by
  induction t generalizing k u with
  | var i s => rfl
  | lam x τ t s ih =>
      rw [depth] at hk hu
      obtain ⟨hnext, hsum⟩ := m.next_of_lt (n := k) (by omega)
      rw [substWord, subst, hnext, mapError_bind, ← hsum]
      show (u.shiftWord m 1 0 >>= _) = _
      rw [shiftWord_zero_eq (hu (Nat.succ_pos _))]
      rcases hshift : u.shift 1 0 with e | u'
      · rfl
      · show (t.substWord m (k + 1) u' >>= _) = (t.subst (k + 1).toNat u' >>= _).mapError _
        have hdepth : u'.depth = u.depth := by
          rw [shift_eq_ok (d := 1) hshift, depth_rename]
        rw [mapError_bind, ← ih (by omega) (by omega)]
        rfl
  | app t₁ t₂ s ih₁ ih₂ =>
      rw [depth] at hk hu
      rw [substWord, subst, mapError_bind, ← ih₁ (by omega) (by omega)]
      congr 1
      funext t₁'
      rw [mapError_bind, ← ih₂ (by omega) (by omega)]
      rfl

theorem lt_of_substWord_checked {t u v : Term} {k : UInt64}
    (h : t.substWord .checked k u = .ok v) :
    k.toNat + t.depth < indexLimit ∧ (0 < t.depth → u.depth < indexLimit) := by
  induction t generalizing k u v with
  | var i s => exact ⟨k.toNat_lt, fun hpos => absurd hpos (Nat.lt_irrefl 0)⟩
  | lam x τ t s ih =>
      obtain ⟨k', hnext, h⟩ := bind_eq_ok_iff.mp h
      obtain ⟨u', hu, h⟩ := bind_eq_ok_iff.mp h
      obtain ⟨t', ht, _⟩ := bind_pure_eq_ok_iff.mp h
      have hsum := Arithmetic.toNat_of_next_checked hnext
      have hlt := (ih ht).1
      have hltu := lt_of_shiftWord_checked hu
      rw [depth]
      omega
  | app t₁ t₂ s ih₁ ih₂ =>
      obtain ⟨t₁', t₂', h₁, h₂, _⟩ := bind_bind_pure_eq_ok_iff.mp h
      have hlt₁ := ih₁ h₁
      have hlt₂ := ih₂ h₂
      rw [depth]
      omega

theorem substWord_checked_eq_ok_iff {t u v : Term} {k : UInt64} :
    t.substWord .checked k u = .ok v ↔ t.subst k.toNat u = .ok v ∧
      k.toNat + t.depth < indexLimit ∧ (0 < t.depth → u.depth < indexLimit) := by
  constructor
  · intro h
    obtain ⟨hk, hu⟩ := lt_of_substWord_checked h
    rw [substWord_eq hk hu] at h
    exact ⟨mapError_eq_ok_iff.mp h, hk, hu⟩
  · rintro ⟨h, hk, hu⟩
    rw [substWord_eq hk hu]
    exact mapError_eq_ok_iff.mpr h

/-! ## Instantiating -/

/-- `instantiate` with all counts in words. -/
def instantiateWord (m : Arithmetic) (body arg : Term) : Except Stop Term := do
  let arg ← arg.shiftWord m 1 0
  let body ← body.substWord m 0 arg
  body.shiftWord m (-1) 0

theorem instantiateWord_eq {m : Arithmetic} {t u : Term} (h : t.depth + u.depth < indexLimit) :
    t.instantiateWord m u = (t.instantiate u).mapError .unmovable := by
  rw [instantiateWord, instantiate, mapError_bind, shiftWord_zero_eq (by omega)]
  rcases hu : u.shift 1 0 with e | u'
  · rfl
  have hdepth : u'.depth = u.depth := by
    rw [shift_eq_ok (d := 1) hu, depth_rename]
  show (t.substWord m 0 u' >>= _) = (t.subst 0 u' >>= _).mapError _
  have hzero : (0 : UInt64).toNat = 0 := UInt64.toNat_zero
  rw [mapError_bind, substWord_eq (by omega) (by omega), UInt64.toNat_zero]
  rcases ht : t.subst 0 u' with e | t'
  · rfl
  have hle : t'.depth ≤ t.depth + u'.depth := by
    rw [subst_eq_ok ht]
    exact depth_substAll_single_le t u' 0
  show t'.shiftWord m (-1) 0 = (t'.shift (-1) 0).mapError _
  exact shiftWord_zero_eq (by omega)

/-! ## Laws -/

theorem substWord_comm {t a b v w : Term} {i j : UInt64} (hij : i ≠ j) (hb : ¬ b.HasFree i.toNat)
    (hv : (do (← t.substWord .checked i a).substWord .checked j b) = .ok v)
    (hw : (do (← t.substWord .checked j b).substWord .checked i (← a.substWord .checked j b)) =
      .ok w) : v = w := by
  obtain ⟨t₁, ht₁, hv⟩ := bind_eq_ok_iff.mp hv
  obtain ⟨t₂, ht₂, hw⟩ := bind_eq_ok_iff.mp hw
  obtain ⟨a', ha, hw⟩ := bind_eq_ok_iff.mp hw
  simp only [substWord_checked_eq_ok_iff] at hv ht₁ hw ht₂ ha
  apply subst_comm (mt UInt64.toNat_inj.mp hij) hb
  · exact bind_eq_ok_iff.mpr ⟨t₁, ht₁.1, hv.1⟩
  · exact bind_eq_ok_iff.mpr ⟨t₂, ht₂.1, bind_eq_ok_iff.mpr ⟨a', ha.1, hw.1⟩⟩

theorem shiftWord_substWord {t b v w : Term} {j c : UInt64} (hc : c ≤ j)
    (hv : (do (← t.substWord .checked j b).shiftWord .checked 1 c) = .ok v)
    (hw : (do
      let k ← Arithmetic.checked.next j
      (← t.shiftWord .checked 1 c).substWord .checked k (← b.shiftWord .checked 1 c)) = .ok w) :
    v = w := by
  obtain ⟨t₁, ht₁, hv⟩ := bind_eq_ok_iff.mp hv
  obtain ⟨k, hk, hw⟩ := bind_eq_ok_iff.mp hw
  obtain ⟨t₂, ht₂, hw⟩ := bind_eq_ok_iff.mp hw
  obtain ⟨b', hb, hw⟩ := bind_eq_ok_iff.mp hw
  simp only [substWord_checked_eq_ok_iff, shiftWord_checked_eq_ok_iff] at hv ht₁ hw ht₂ hb
  rw [Arithmetic.toNat_of_next_checked hk] at hw
  apply shift_subst (UInt64.le_iff_toNat_le.mp hc)
  · exact bind_eq_ok_iff.mpr ⟨t₁, ht₁.1, hv.1⟩
  · exact bind_eq_ok_iff.mpr ⟨t₂, ht₂.1, bind_eq_ok_iff.mpr ⟨b', hb.1, hw.1⟩⟩

end Term

/-- `substWord` commutes with `substWord`, and with a `shiftWord` behind the first `c` variables,
whenever everything that is computed on either side gives a term. A target or a cutoff that leaves
the range, at the root or under a binder, is `Stop.overflow` and no term.

Wrapping arithmetic has no such error. It gives the same terms as long as each count, together with
the nesting below it, stays in range, so the laws hold there within these bounds. Past them a target
meets variables that `t` binds itself. -/
theorem substitutions_commute :
    (∀ (t a b v w : Term) (i j : UInt64), i ≠ j → ¬ b.HasFree i.toNat →
      (do (← t.substWord .checked i a).substWord .checked j b) = .ok v →
      (do (← t.substWord .checked j b).substWord .checked i (← a.substWord .checked j b)) =
        .ok w → v = w) ∧
    (∀ (t b v w : Term) (j c : UInt64), c ≤ j →
      (do (← t.substWord .checked j b).shiftWord .checked 1 c) = .ok v →
      (do
        let k ← Arithmetic.checked.next j
        (← t.shiftWord .checked 1 c).substWord .checked k (← b.shiftWord .checked 1 c)) = .ok w →
      v = w) ∧
    (∀ (t u : Term) (d : Int) (c : UInt64), t.shiftWord .checked d c = .ok u ↔
      t.shiftWord .wrapping d c = .ok u ∧ c.toNat + t.depth < indexLimit) ∧
    ∀ (t u v : Term) (k : UInt64), t.substWord .checked k u = .ok v ↔
      t.substWord .wrapping k u = .ok v ∧ k.toNat + t.depth < indexLimit ∧
        (0 < t.depth → u.depth < indexLimit) := by
  refine ⟨?_, ?_, ?_, ?_⟩
  · intro t a b v w i j hij hb hv hw
    exact Term.substWord_comm hij hb hv hw
  · intro t b v w j c hc hv hw
    exact Term.shiftWord_substWord hc hv hw
  · intro t u d c
    rw [Term.shiftWord_checked_eq_ok_iff]
    refine and_congr_left fun hc => ?_
    rw [Term.shiftWord_eq hc, mapError_eq_ok_iff]
  · intro t u v k
    rw [Term.substWord_checked_eq_ok_iff]
    refine and_congr_left fun ⟨hk, hu⟩ => ?_
    rw [Term.substWord_eq hk hu, mapError_eq_ok_iff]

/-- Two of the targets are the last ones that can still be counted under two binders. The first
replacement mentions the variable that the second one replaces, both occur under a binder, and the
shift leaves a variable alone. -/
theorem substitutions_commute_under_binder :
    let bool : Ty := .bool .nowhere
    let var : Nat → Term := (.var · .nowhere)
    let app : Term → Term → Term := (.app · · .nowhere)
    let lam : String → Term → Term := (.lam · bool · .nowhere)
    let j : UInt64 := 18446744073709551613
    let t : Term := lam "x" (app (app (var 1) (var 18446744073709551614)) (var 0))
    let a : Term := lam "y" (app (var 18446744073709551614) (var 0))
    let b : Term := app (var 1) (var 3)
    let u : Term := app (var 2) (var 4)
    (do (← t.substWord .checked j b).substWord .checked 0 (← a.substWord .checked j b)) =
        .ok (lam "x" (app (app (lam "y" (app (app (var 3) (var 5)) (var 0))) u) (var 0))) ∧
      (do
        let k ← Arithmetic.checked.next j
        (← t.shiftWord .checked 1 1).substWord .checked k (← b.shiftWord .checked 1 1)) =
        .ok (lam "x" (app (app (var 1) (app (var 3) (var 5))) (var 0))) ∧
      t.substWord .wrapping j b = .ok (lam "x" (app (app (var 1) u) (var 0))) := by
  intro bool var app lam j t a b u
  have hb : ¬ b.HasFree (UInt64.toNat 0) := by simp [b, app, var, Term.HasFree]
  obtain ⟨w₁, h₁⟩ : ∃ w, (do
      (← t.substWord .checked j b).substWord .checked 0 (← a.substWord .checked j b)) = .ok w :=
    ⟨_, rfl⟩
  obtain ⟨w₂, h₂⟩ : ∃ w, (do
      let k ← Arithmetic.checked.next j
      (← t.shiftWord .checked 1 1).substWord .checked k (← b.shiftWord .checked 1 1)) = .ok w :=
    ⟨_, rfl⟩
  obtain ⟨hcomm, hshift, _, hwrapping⟩ := substitutions_commute
  rw [h₁, h₂, ← hcomm t a b _ w₁ 0 j (by decide) hb rfl h₁,
    ← hshift t b _ w₂ j 1 (by decide) rfl h₂]
  exact ⟨rfl, rfl, ((hwrapping t b _ j).mp rfl).1⟩

/-- Past the bounds, the second law fails with wrapping arithmetic: under the binder, the greatest
target goes on at zero and takes the bound variable. -/
example :
    let bool : Ty := .bool .nowhere
    let var : Nat → Term := (.var · .nowhere)
    let t : Term := .lam "x" bool (var 0) .nowhere
    let j : UInt64 := 18446744073709551614
    (do (← t.substWord .wrapping j (var 0)).shiftWord .wrapping 1 0) = .ok t ∧
      (do
        let k ← Arithmetic.wrapping.next j
        (← t.shiftWord .wrapping 1 0).substWord .wrapping k
          (← (var 0).shiftWord .wrapping 1 0)) =
        .ok (.lam "x" bool (var 2) .nowhere) :=
  ⟨rfl, rfl⟩

end Stlc
