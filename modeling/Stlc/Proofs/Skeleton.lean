import Stlc.Proofs.Naming
import Stlc.Proofs.Outline
import Stlc.Proofs.Typing

/-!
# Terms up to names and spans

The skeleton of a term is what is left when the names of its binders and its spans are forgotten:
its shape, its indices and the types it mentions. Typing sees nothing else, and reduction even less.
-/

namespace Stlc

namespace Term

/-- The term with the names of its binders and its spans forgotten. -/
def skeleton : Term → Term
  | var i _ => var i .nowhere
  | lam _ τ t _ => lam "" τ.eraseSpans t.skeleton .nowhere
  | app t u _ => app t.skeleton u.skeleton .nowhere

@[simp] theorem skeleton_eraseSpans (t : Term) : t.eraseSpans.skeleton = t.skeleton := by
  induction t with
  | var i s => rfl
  | lam x τ t s ih => simp only [eraseSpans, skeleton, Ty.eraseSpans_eraseSpans, ih]
  | app t u s iht ihu => simp only [eraseSpans, skeleton, iht, ihu]

@[simp] theorem skeleton_refresh (t : Term) (scope : Stack String) :
    (t.refresh scope).skeleton = t.skeleton := by
  induction t generalizing scope with
  | var i s => rfl
  | lam x τ t s ih => simp only [refresh, skeleton, ih]
  | app t u s iht ihu => simp only [refresh, skeleton, iht, ihu]

/-! ## Inversion -/

theorem skeleton_eq_var {t : Term} {i : Nat} {s : Span} (h : t.skeleton = (var i s).skeleton) :
    ∃ s', t = var i s' := by
  cases t with
  | var j s' =>
      cases h
      exact ⟨s', rfl⟩
  | lam => cases h
  | app => cases h

theorem skeleton_eq_lam {t b : Term} {x : String} {τ : Ty} {s : Span}
    (h : t.skeleton = (lam x τ b s).skeleton) :
    ∃ y σ c s', t = lam y σ c s' ∧ σ.eraseSpans = τ.eraseSpans ∧ c.skeleton = b.skeleton := by
  cases t with
  | var => cases h
  | lam y σ c s' =>
      simp only [skeleton, lam.injEq] at h
      exact ⟨y, σ, c, s', rfl, h.2.1, h.2.2.1⟩
  | app => cases h

theorem skeleton_eq_app {t u v : Term} {s : Span} (h : t.skeleton = (app u v s).skeleton) :
    ∃ u' v' s', t = app u' v' s' ∧ u'.skeleton = u.skeleton ∧ v'.skeleton = v.skeleton := by
  cases t with
  | var => cases h
  | lam => cases h
  | app u' v' s' =>
      simp only [skeleton, app.injEq] at h
      exact ⟨u', v', s', rfl, h.1, h.2.1⟩

/-! ## Reduction and typing -/

@[simp] theorem outline_skeleton (t : Term) : t.skeleton.outline = t.outline := by
  induction t with
  | var i s => rfl
  | lam x τ t s ih => simp only [skeleton, outline, ih]
  | app t u s iht ihu => simp only [skeleton, outline, iht, ihu]

/-- Where no rule applies, none applies whatever the names are. -/
theorem step_eq_none_of_skeleton_eq {t u : Term} (h : u.skeleton = t.skeleton)
    (ht : t.step = .ok none) : u.step = .ok none := by
  have houtline : u.outline = t.outline := by rw [← outline_skeleton, h, outline_skeleton]
  exact step_eq_none_of_outline_eq houtline ht

end Term

/-- Typing does not look at names, neither at those of the binders nor at those of the context. -/
theorem HasType.of_skeleton_eq {Γ Δ : Context} {t u : Term} {τ : Ty} (ht : HasType Γ t τ)
    (hΔ : ∀ i, Δ.typeAt? i = Γ.typeAt? i) (h : u.skeleton = t.skeleton) : HasType Δ u τ := by
  induction ht generalizing Δ u with
  | var hi =>
      obtain ⟨s', rfl⟩ := Term.skeleton_eq_var h
      exact .var ((hΔ _).trans hi)
  | lam _ ih =>
      obtain ⟨y, σ, c, s', rfl, hσ, hc⟩ := Term.skeleton_eq_lam h
      -- Without their spans the two annotations are one type.
      rw [← hσ]
      refine .lam (ih ?_ hc)
      intro i
      cases i with
      | zero => exact congrArg some hσ
      | succ i => exact hΔ i
  | app _ _ iht ihu =>
      obtain ⟨t', u', s', rfl, ht, hu⟩ := Term.skeleton_eq_app h
      exact .app (iht hΔ ht) (ihu hΔ hu)

end Stlc
