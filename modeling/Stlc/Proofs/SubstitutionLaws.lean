import Stlc.Proofs.Overflow

/-!
# Laws of substitution

What the replacement of one variable does to a term: which variables are free in the result, which
terms it leaves as they are, and how it can be exchanged with another substitution, or with a shift
that makes room for a variable. Nothing is captured: under the binders of the term the replacement
keeps its own free variables, whichever names the binders carry.

Replacing one variable is a substitution for all of them, so each law is an equation between what
its two sides have for a single variable. The main statement, `substitution_avoids_capture`, is
about the pass that performs the substitution, `Term.subst`.

## Key lemmas

* `Term.hasFree_substAll_single` — the free variables of the result.
* `Term.substAll_single_of_not_hasFree` — a variable that does not occur is not replaced.
* `Term.substAll_single_comm`, `Term.rename_substAll_single` — the two exchanges.
* `Term.subst_comm`, `Term.shift_subst` — the same of `subst` and `shift`, where they give a term.
-/

namespace Stlc

namespace Term

/-! ## What is replaced, and what is left -/

theorem hasFree_substAll_single {t u : Term} {k j : Nat} :
    (t.substAll (.single k u)).HasFree j ↔
      t.HasFree j ∧ j ≠ k ∨ t.HasFree k ∧ u.HasFree j := by
  constructor
  · intro h
    obtain ⟨i, s, hi, hj⟩ := HasFree.of_substAll h
    rw [Substitution.single] at hj
    by_cases hik : i = k
    · subst hik
      rw [if_pos rfl] at hj
      exact .inr ⟨hi, hj⟩
    · rw [if_neg hik] at hj
      cases hj
      exact .inl ⟨hi, hik⟩
  · rintro (⟨hj, hjk⟩ | ⟨hk, hj⟩)
    · apply hj.substAll
      intro s
      rw [Substitution.single, if_neg hjk]
      rfl
    · apply hk.substAll
      intro s
      rw [Substitution.single, if_pos rfl]
      exact hj

theorem Scoped.substAll_single {t u : Term} {n k : Nat} (ht : t.Scoped n) (hu : u.Scoped n) :
    (t.substAll (.single k u)).Scoped n := by
  intro j hj
  rcases hasFree_substAll_single.mp hj with ⟨hj, _⟩ | ⟨_, hj⟩
  · exact ht j hj
  · exact hu j hj

theorem depth_substAll_single_le (t u : Term) (k : Nat) :
    (t.substAll (.single k u)).depth ≤ t.depth + u.depth := by
  apply depth_substAll_le
  intro i s
  rw [Substitution.single]
  split
  · exact Nat.le_refl _
  · exact Nat.zero_le _

theorem substAll_single_of_not_hasFree {t u : Term} {k : Nat} (h : ¬ t.HasFree k) :
    t.substAll (.single k u) = t := by
  have hvar : ∀ i s, t.HasFree i → Substitution.single k u i s = .var i s := by
    intro i s hi
    apply if_neg
    rintro rfl
    exact h hi
  calc t.substAll (.single k u) = t.substAll .var := substAll_congr hvar
    _ = t := substAll_var t

/-- Putting each variable in its own place changes at most where the variables were read. -/
theorem eraseSpans_substAll_of_var {t : Term} {σ : Substitution}
    (hσ : ∀ i s, ∃ s', σ i s = .var i s') : (t.substAll σ).eraseSpans = t.eraseSpans := by
  induction t generalizing σ with
  | var i s =>
      obtain ⟨s', h⟩ := hσ i s
      rw [substAll, h]
      rfl
  | lam x τ t s ih =>
      have hlift : ∀ i s, ∃ s', σ.lift i s = .var i s' := by
        intro i s
        cases i with
        | zero => exact ⟨s, rfl⟩
        | succ i =>
            obtain ⟨s', h⟩ := hσ i s
            exact ⟨s', by rw [Substitution.lift, h, rename]⟩
      rw [substAll, eraseSpans, eraseSpans, ih hlift]
  | app t u s iht ihu => rw [substAll, eraseSpans, eraseSpans, iht hσ, ihu hσ]

theorem sameAs_substAll_single_self (t : Term) (k : Nat) (s : Span) :
    (t.substAll (.single k (.var k s))).sameAs t := by
  rw [sameAs_iff]
  apply eraseSpans_substAll_of_var
  intro i s'
  by_cases hi : i = k
  · exact ⟨s, by rw [Substitution.single, if_pos hi, hi]⟩
  · exact ⟨s', if_neg hi⟩

/-! ## Exchanges -/

/-- Two substitutions change places, if the one that now comes first is done in the replacement of
the other as well. -/
theorem substAll_single_comm {t a b : Term} {i j : Nat} (hij : i ≠ j) (hb : ¬ b.HasFree i) :
    (t.substAll (.single i a)).substAll (.single j b) =
      (t.substAll (.single j b)).substAll (.single i (a.substAll (.single j b))) := by
  rw [substAll_substAll, substAll_substAll]
  congr 1
  funext k s
  by_cases hki : k = i
  · subst hki
    simp [Substitution.single, hij, substAll]
  · by_cases hkj : k = j
    · subst hkj
      simp only [Substitution.single, if_neg hki, substAll]
      exact (substAll_single_of_not_hasFree hb).symm
    · simp [Substitution.single, hki, hkj, substAll]

/-- A substitution goes under new binders, if the variable that it replaces is one of those that
are moved out of their way. -/
theorem rename_substAll_single {t b : Term} {j c : Nat} (h : c ≤ j) :
    (t.substAll (.single j b)).rename (.raise 1 c) =
      (t.rename (.raise 1 c)).substAll (.single (j + 1) (b.rename (.raise 1 c))) := by
  rw [rename_substAll, substAll_rename]
  congr 1
  funext k s
  simp only [Substitution.single]
  by_cases hk : k = j
  · subst hk
    rw [if_pos rfl, if_pos]
    exact if_neg (by omega)
  · rw [if_neg hk, if_neg]
    · rfl
    · -- Only the variable `j` is moved to `j + 1`.
      unfold Renaming.raise
      split <;> omega

theorem subst_comm {t a b v w : Term} {i j : Nat} (hij : i ≠ j) (hb : ¬ b.HasFree i)
    (hv : (do (← t.subst i a).subst j b) = .ok v)
    (hw : (do (← t.subst j b).subst i (← a.subst j b)) = .ok w) : v = w := by
  obtain ⟨t₁, ht₁, hv⟩ := bind_eq_ok_iff.mp hv
  obtain ⟨t₂, ht₂, hw⟩ := bind_eq_ok_iff.mp hw
  obtain ⟨a', ha, hw⟩ := bind_eq_ok_iff.mp hw
  rw [subst_eq_ok hv, subst_eq_ok ht₁, subst_eq_ok hw, subst_eq_ok ht₂, subst_eq_ok ha]
  exact substAll_single_comm hij hb

theorem shift_subst {t b v w : Term} {j c : Nat} (hc : c ≤ j)
    (hv : (do (← t.subst j b).shift 1 c) = .ok v)
    (hw : (do (← t.shift 1 c).subst (j + 1) (← b.shift 1 c)) = .ok w) : v = w := by
  obtain ⟨t₁, ht₁, hv⟩ := bind_eq_ok_iff.mp hv
  obtain ⟨t₂, ht₂, hw⟩ := bind_eq_ok_iff.mp hw
  obtain ⟨b', hb, hw⟩ := bind_eq_ok_iff.mp hw
  rw [shift_eq_ok (d := 1) hv, subst_eq_ok ht₁, subst_eq_ok hw, shift_eq_ok (d := 1) ht₂,
    shift_eq_ok (d := 1) hb]
  exact rename_substAll_single hc

end Term

/-- **Capture avoidance.** `Term.subst` is `substAll (.single k u)`, the substitution that cannot
overflow, as long as every free index of `u` fits under `t.depth` binders. So it replaces `k` by `u`
in the free indices, changes nothing where `k` is not free, and puts `k` for itself without a trace
but spans. Beyond that bound `subst` fails, whether `k` occurs in `t` or not, because `u` is moved
under each binder before it is known to be used. -/
theorem substitution_avoids_capture :
    (∀ (t u : Term) (k : Nat), (∀ i, u.HasIndexPast 0 i → i + t.depth < indexLimit) →
      ∃ v, t.subst k u = .ok v ∧ v = t.substAll (.single k u) ∧
        (t.HasFree k → ∀ j, v.HasFree j ↔ t.HasFree j ∧ j ≠ k ∨ u.HasFree j) ∧
        (¬ t.HasFree k → v = t)) ∧
    (∀ (t : Term) (k : Nat) (s : Span), k + t.depth < indexLimit →
      ∃ v, t.subst k (.var k s) = .ok v ∧ v.sameAs t) ∧
    (∀ (t u : Term) (k i m : Nat), m ≤ t.depth → u.HasIndexPast 0 i → i < indexLimit →
      indexLimit ≤ i + m → ∃ e, t.subst k u = .error e ∧ e.IsOverflow) := by
  have hok : ∀ (t u : Term) (k : Nat), (∀ i, u.HasIndexPast 0 i → i + t.depth < indexLimit) →
      t.subst k u = .ok (t.substAll (.single k u)) := by
    intro t u k h
    have hroom : ∀ i m, u.HasIndexPast 0 i → m < t.depth → i + m + 1 < indexLimit := by
      intro i m hi hm
      have := h i hi
      omega
    obtain ⟨v, hv⟩ := Term.subst_isOk_iff.mpr hroom
    rw [hv, Term.subst_eq_ok hv]
  refine ⟨?_, ?_, ?_⟩
  · intro t u k h
    refine ⟨_, hok t u k h, rfl, ?_, Term.substAll_single_of_not_hasFree⟩
    intro hk j
    rw [Term.hasFree_substAll_single, and_iff_right hk]
  · intro t k s hk
    have hroom : ∀ i, (Term.var k s).HasIndexPast 0 i → i + t.depth < indexLimit := by
      rintro i ⟨rfl, _⟩
      exact hk
    exact ⟨_, hok t _ k hroom, Term.sameAs_substAll_single_self t k s⟩
  · intro t u k i m hm hi hlt hge
    cases hv : t.subst k u with
    | error e => exact ⟨e, rfl, Term.subst_eq_error hv⟩
    | ok v =>
        -- The last of the moves under the `m` abstractions is the one there is no room for.
        have := Term.subst_isOk_iff.mp ⟨v, hv⟩ i (m - 1) hi (by omega)
        omega

/-- A replacement with a free variable and a binder of its own, in a term where the variable occurs
under a binder; and one whose index is the last there is, in a term that is closed. -/
theorem substitution_avoids_capture_under_binder :
    let bool : Ty := .bool .nowhere
    let var : Nat → Term := (.var · .nowhere)
    let t : Term := .app (.lam "x" bool (.app (var 1) (var 0) .nowhere) .nowhere) (var 2) .nowhere
    let u : Term := .lam "y" bool (.app (var 4) (var 0) .nowhere) .nowhere
    (∃ v, t.subst 0 u = .ok v ∧ ∀ j, v.HasFree j ↔ j = 2 ∨ j = 3) ∧
      (∃ v, t.subst 2 (var 2) = .ok v ∧ v.sameAs t) ∧
      ∃ e, (Term.lam "x" bool (var 0) .nowhere).subst 0 (var (indexLimit - 1)) = .error e := by
  intro bool var t u
  obtain ⟨hfree, hself, herror⟩ := substitution_avoids_capture
  refine ⟨?_, hself t 2 .nowhere (by decide), ?_⟩
  · have hroom : ∀ i, u.HasIndexPast 0 i → i + t.depth < indexLimit := by
      rintro i (⟨rfl, _⟩ | ⟨rfl, _⟩) <;> decide
    obtain ⟨v, hv, _, hiff, _⟩ := hfree t u 0 hroom
    refine ⟨v, hv, fun j => ?_⟩
    rw [hiff (.inl (.inl rfl)) j]
    simp only [t, u, var, Term.HasFree]
    omega
  · obtain ⟨e, he, _⟩ := herror (.lam "x" bool (var 0) .nowhere) (var (indexLimit - 1)) 0
      (indexLimit - 1) 1 (by decide) ⟨rfl, Nat.zero_le _⟩ (by decide) (by decide)
    exact ⟨e, he⟩

end Stlc
