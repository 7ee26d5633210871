import Stlc.Proofs.FreeVariables
import Stlc.Proofs.Renumbering

/-!
# Which passes overflow

A pass fails if it moves an index out of its range, and which indices it moves is known before:
those that count past all the binders it was told to leave alone. `Term.HasIndexPast` lists them as
they are written. A shift succeeds exactly if each of them has room for the move, and a substitution
exactly if each index of the replacement has room for as many moves as the target nests binders.

## Key lemmas

* `Term.shift_isOk_iff`, `Term.subst_isOk_iff` — when the passes succeed.
* `Term.HasIndexPast.lt_of_scoped` — the variables in scope and the nesting bound all indices.
* `Term.shift_natCast_eq_error`, `Term.shift_neg_one_eq_error`, `Term.subst_eq_error` — where a
  pass fails, it is at the top of the range.
-/

namespace Stlc

namespace Term

/-! ## Indices as they are written -/

/-- A variable that counts past `c` binders, and past all those of the term around it, is written as
the index `i`. -/
def HasIndexPast : Term → Nat → Nat → Prop
  | var j _, c, i => j = i ∧ c ≤ i
  | lam _ _ t _, c, i => t.HasIndexPast (c + 1) i
  | app t u _, c, i => t.HasIndexPast c i ∨ u.HasIndexPast c i

/-- The free variables of the term are written as indices below `indexLimit`. -/
def InRange (t : Term) : Prop := ∀ i, t.HasIndexPast 0 i → i < indexLimit

/-- Each binder around a variable adds one to its index. -/
theorem HasIndexPast.lt_of_scoped {t : Term} {c i n : Nat} (h : t.HasIndexPast c i)
    (ht : t.Scoped n) : i < n + t.depth := by
  induction t generalizing c n with
  | var j s =>
      obtain ⟨rfl, _⟩ := h
      exact (scoped_var ..).mp ht
  | lam x τ t s ih =>
      have := ih h ((scoped_lam ..).mp ht)
      simp only [depth]
      omega
  | app t u s iht ihu =>
      obtain ⟨ht, hu⟩ := (scoped_app ..).mp ht
      simp only [depth]
      rcases h with h | h
      · have := iht h ht
        omega
      · have := ihu h hu
        omega

/-- The indices that count past `c` binders, found by going through the variables. -/
theorem hasIndexPast_iff {t : Term} {c k i : Nat} :
    t.HasIndexPast (c + k) i ↔ ∃ v ∈ t.vars k, v.index = i ∧ c + v.binders ≤ i := by
  induction t generalizing k with
  | var j s => simp [HasIndexPast, vars]
  | lam x τ t s ih => exact ih (k := k + 1)
  | app t u s iht ihu => grind [HasIndexPast, vars]

theorem HasIndexPast.mono {t : Term} {c c' i : Nat} (h : t.HasIndexPast c' i) (hc : c ≤ c') :
    t.HasIndexPast c i := by
  induction t generalizing c c' with
  | var j s => exact ⟨h.1, hc.trans h.2⟩
  | lam x τ t s ih => exact ih h (Nat.succ_le_succ hc)
  | app t u s iht ihu => exact h.imp (iht · hc) (ihu · hc)

/-- Making room for `d` variables behind the first `c` moves the indices that count past these. -/
theorem hasIndexPast_rename_raise {t : Term} {d c c' i : Nat} (hc : c ≤ c') (hc' : c' ≤ c + d) :
    (t.rename (.raise d c)).HasIndexPast c' i ↔ ∃ j, t.HasIndexPast c j ∧ j + d = i := by
  induction t generalizing c c' with
  | var j s =>
      simp only [rename, HasIndexPast, Renaming.raise]
      constructor
      · rintro ⟨rfl, hi⟩
        split at hi
        · omega
        · next hj => exact ⟨j, ⟨rfl, by omega⟩, by rw [if_neg hj]⟩
      · rintro ⟨_, ⟨rfl, hj⟩, rfl⟩
        rw [if_neg (by omega)]
        exact ⟨rfl, by omega⟩
  | lam x τ t s ih =>
      rw [rename, Renaming.lift_raise]
      exact ih (by omega) (by omega)
  | app t u s iht ihu =>
      simp only [rename, HasIndexPast, iht hc hc', ihu hc hc', or_and_right, exists_or]

/-! ## Success -/

/-- A shift succeeds if the indices that it moves stay in range, and only then. -/
theorem shift_isOk_iff {t : Term} {d : Int} {c : Nat} :
    (∃ u, t.shift d c = .ok u) ↔
      ∀ i : Nat, t.HasIndexPast c i → 0 ≤ i + d ∧ i + d < indexLimit := by
  have hmovable := shift_isOk_iff_isMovable (t := t) (d := d) (c := c) (k := 0)
  refine hmovable.trans ⟨?_, ?_⟩
  · intro h i hi
    obtain ⟨v, hv, rfl, hc⟩ := hasIndexPast_iff (k := 0).mp hi
    exact h v hv hc
  · intro h v hv hc
    exact h v.index (hasIndexPast_iff (k := 0).mpr ⟨v, hv, rfl, hc⟩)

/-- A shift outwards succeeds as long as there are indices for the variables in scope, for those
that room is made for and for the binders on the way to a variable. -/
theorem shift_isOk {t : Term} {n d c : Nat} (h : t.Scoped n) (hn : n + d + t.depth ≤ indexLimit) :
    ∃ u, t.shift d c = .ok u := by
  rw [shift_isOk_iff]
  intro i hi
  have := hi.lt_of_scoped h
  omega

/-- What a shift has moved is in range. -/
theorem HasIndexPast.lt_of_shift {t u : Term} {d : Int} {c i : Nat} (h : t.shift d c = .ok u)
    (hi : u.HasIndexPast c i) : i < indexLimit := by
  induction t generalizing u c with
  | var j s =>
      rw [shift] at h
      by_cases hj : j < c
      · rw [if_pos hj] at h
        cases h
        obtain ⟨rfl, hc⟩ := hi
        omega
      · rw [if_neg hj, shiftIndex] at h
        by_cases hd : 0 ≤ j + d ∧ j + d < indexLimit
        · rw [if_pos hd] at h
          cases h
          obtain ⟨rfl, _⟩ := hi
          omega
        · rw [if_neg hd] at h
          cases h
  | lam x τ t s ih =>
      obtain ⟨t', ht, rfl⟩ := bind_pure_eq_ok_iff.mp h
      exact ih ht hi
  | app t₁ t₂ s ih₁ ih₂ =>
      obtain ⟨t₁', t₂', h₁, h₂, rfl⟩ := bind_bind_pure_eq_ok_iff.mp h
      rcases hi with hi | hi
      · exact ih₁ h₁ hi
      · exact ih₂ h₂ hi

theorem shift_one_isOk_iff {t : Term} {c : Nat} :
    (∃ u, t.shift 1 c = .ok u) ↔ ∀ i, t.HasIndexPast c i → i + 1 < indexLimit := by
  rw [shift_isOk_iff]
  refine forall_congr' fun i => imp_congr_right fun _ => ?_
  omega

/-- Room that has been made can be taken back, unless there was an index out of range before. -/
theorem shift_neg_one_isOk_iff {t : Term} {c : Nat} :
    (∃ u, (t.rename (.raise 1 c)).shift (-1) c = .ok u) ↔
      ∀ i, t.HasIndexPast c i → i < indexLimit := by
  rw [shift_isOk_iff]
  constructor
  · intro h i hi
    have := h (i + 1) ((hasIndexPast_rename_raise (by omega) (by omega)).mpr ⟨i, hi, rfl⟩)
    omega
  · intro h j hj
    obtain ⟨i, hi, rfl⟩ := (hasIndexPast_rename_raise (by omega) (by omega)).mp hj
    have := h i hi
    omega

/-- After a shift by one, the indices are those of before with one added. -/
theorem hasIndexPast_of_shift_one {t u : Term} {j : Nat} (h : t.shift 1 0 = .ok u) :
    u.HasIndexPast 0 j ↔ ∃ i, t.HasIndexPast 0 i ∧ i + 1 = j := by
  rw [shift_eq_ok (d := 1) h]
  exact hasIndexPast_rename_raise (by omega) (by omega)

/-- The replacement is moved under every abstraction that is met, whether it is used there or not,
so its indices need as much room as the abstractions nest. -/
theorem subst_isOk_iff {t u : Term} {k : Nat} :
    (∃ v, t.subst k u = .ok v) ↔
      ∀ i m, u.HasIndexPast 0 i → m < t.depth → i + m + 1 < indexLimit := by
  induction t generalizing k u with
  | var i s => exact ⟨fun _ _ _ _ hm => absurd hm (Nat.not_lt_zero _), fun _ => ⟨_, rfl⟩⟩
  | lam x τ t s ih =>
      rw [subst, exists_bind_eq_ok_iff]
      simp only [exists_bind_pure_eq_ok_iff, depth, ih]
      constructor
      · rintro ⟨u', hu, h⟩ i m hi hm
        cases m with
        | zero => exact shift_one_isOk_iff.mp ⟨u', hu⟩ i hi
        | succ m =>
            have := h (i + 1) m ((hasIndexPast_of_shift_one hu).mpr ⟨i, hi, rfl⟩) (by omega)
            omega
      · intro h
        obtain ⟨u', hu⟩ := shift_one_isOk_iff.mpr fun i hi => h i 0 hi (by omega)
        refine ⟨u', hu, fun j m hj hm => ?_⟩
        obtain ⟨i, hi, rfl⟩ := (hasIndexPast_of_shift_one hu).mp hj
        have := h i (m + 1) hi (by omega)
        omega
  | app t₁ t₂ s ih₁ ih₂ =>
      rw [subst, exists_bind_bind_pure_eq_ok_iff, ih₁, ih₂]
      simp only [depth, lt_sup_iff, or_imp, imp_and, forall_and]

end Term

/-! ## Failure -/

/-- The error is about a variable that would pass the top of the range. -/
def ShiftError.IsOverflow (e : ShiftError) : Prop := (indexLimit : Int) ≤ e.index + e.amount

/-- The computation gives up for want of indices. -/
def Overflows {α : Type} (x : Except ShiftError α) : Prop := ∃ e, x = .error e ∧ e.IsOverflow

theorem Overflows.bind {α β : Type} {x : Except ShiftError α} (h : Overflows x)
    (f : α → Except ShiftError β) : Overflows (x >>= f) := by
  obtain ⟨e, rfl, he⟩ := h
  exact ⟨e, rfl, he⟩

namespace Term

/-- A shift fails at a variable that it moves and that would leave the range at one of its ends. -/
theorem shift_eq_error {t : Term} {d : Int} {c : Nat} {e : ShiftError}
    (h : t.shift d c = .error e) :
    e.amount = d ∧ t.HasIndexPast c e.index ∧ ¬ (0 ≤ e.index + d ∧ e.index + d < indexLimit) := by
  obtain ⟨v, hfirst, rfl⟩ := exists_unmovable_of_shift (k := 0) h
  obtain ⟨hc, hrange⟩ := Classical.not_imp.mp hfirst.lacks
  exact ⟨rfl, hasIndexPast_iff (k := 0).mpr ⟨v, hfirst.mem, rfl, hc⟩, hrange⟩

/-- A shift outwards misses no other end of the range than the top. -/
theorem shift_natCast_eq_error {t : Term} {d c : Nat} {e : ShiftError}
    (h : t.shift d c = .error e) : e.IsOverflow := by
  obtain ⟨hd, _, hrange⟩ := shift_eq_error h
  rw [ShiftError.IsOverflow, hd]
  omega

theorem shift_neg_one_eq_error {t : Term} {c : Nat} {e : ShiftError}
    (h : (t.rename (.raise 1 c)).shift (-1) c = .error e) : e.IsOverflow := by
  obtain ⟨hd, hi, hrange⟩ := shift_eq_error h
  -- The index has been moved up, so it is the top of the range that it would miss.
  obtain ⟨i, _, hi⟩ := (hasIndexPast_rename_raise (by omega) (by omega)).mp hi
  rw [ShiftError.IsOverflow, hd]
  omega

theorem subst_eq_error {t u : Term} {k : Nat} {e : ShiftError} (h : t.subst k u = .error e) :
    e.IsOverflow := by
  induction t generalizing k u with
  | var i s => cases h
  | lam x τ t s ih =>
      rcases bind_eq_error_iff.mp h with h | ⟨u', _, h⟩
      · exact shift_natCast_eq_error (d := 1) h
      · exact ih (bind_pure_eq_error_iff.mp h)
  | app t₁ t₂ s ih₁ ih₂ =>
      rcases error_of_bind_bind_pure h with h | h
      · exact ih₁ h
      · exact ih₂ h

end Term

end Stlc
