import Stlc.Proofs.Reduction

/-!
# Evaluation without steps

`Term.Evaluates` is call by value in one go: an abstraction is its own value, and an application has
the value of what the body of its head becomes when the value of its argument is put in. Nothing is
said about the order of the work.

The steps of a run do that work in one order: the head first, then the argument, then the body.
Runs of the parts are put together to a run of the application (`Term.Run.head`, `Term.Run.arg`,
`Term.Evaluates.run`). Conversely a run need not be taken apart, since evaluation absorbs a step
that comes before it (`Term.Evaluates.of_step`).
-/

namespace Stlc

namespace Term

/-- The term has a value: an abstraction that it evaluates to. All three passes of the instantiation
have to succeed. -/
inductive Evaluates : Term → Term → Prop where
  | lam {x τ b s} : Evaluates (lam x τ b s) (lam x τ b s)
  | app {t u s x τ b s' w r v} : Evaluates t (lam x τ b s') → Evaluates u w →
      b.instantiate w = .ok r → Evaluates r v → Evaluates (app t u s) v

theorem Evaluates.isValue {t v : Term} (h : t.Evaluates v) : v.isValue := by
  induction h with
  | lam => rfl
  | app _ _ _ _ _ _ ih => exact ih

theorem evaluates_self {v : Term} (hv : v.isValue) : v.Evaluates v := by
  obtain ⟨x, τ, b, s, rfl⟩ := isValue_iff.mp hv
  exact .lam

/-! ## Runs of an application -/

theorem Run.head {n : Nat} {t t' : Term} (h : Run n t t') (u : Term) (s : Span) :
    Run n (app t u s) (app t' u s) := by
  induction h with
  | refl => exact .refl
  | cons hs _ ih =>
      refine .cons ?_ ih
      rw [step_app_head (Reduces.of_step hs).not_isValue, hs]
      rfl

theorem Run.arg {n : Nat} {t u u' : Term} (ht : t.isValue) (h : Run n u u') (s : Span) :
    Run n (app t u s) (app t u' s) := by
  induction h with
  | refl => exact .refl
  | cons hs _ ih =>
      refine .cons ?_ ih
      rw [step_app_arg ht (Reduces.of_step hs).not_isValue, hs]
      rfl

theorem step_redex {x : String} {τ : Ty} {b w r : Term} {s' s : Span} (hw : w.isValue)
    (hr : b.instantiate w = .ok r) : (app (lam x τ b s') w s).step = .ok (some r) := by
  rw [step_app_beta hw, hr]
  rfl

/-! ## Evaluation and runs -/

/-- The head is run to its value, then the argument, and then the instantiated body. -/
theorem Evaluates.run {t v : Term} (h : t.Evaluates v) : ∃ n, Run n t v := by
  induction h with
  | lam => exact ⟨0, .refl⟩
  | @app t u s x τ b s' w r v _ hw hr _ iht ihu ihr =>
      obtain ⟨n, hn⟩ := iht
      obtain ⟨m, hm⟩ := ihu
      obtain ⟨k, hk⟩ := ihr
      let fn : Term := .lam x τ b s'
      have hhead : Run n (.app t u s) (.app fn u s) := hn.head u s
      have harg : Run m (.app fn u s) (.app fn w s) := hm.arg rfl s
      have hbody : Run (k + 1) (.app fn w s) v := .cons (step_redex hw.isValue hr) hk
      exact ⟨n + (m + (k + 1)), hhead.trans (harg.trans hbody)⟩

/-- A term has the values of the term that it steps to. -/
theorem Evaluates.of_step {t u v : Term} (hs : t.step = .ok (some u)) (h : u.Evaluates v) :
    t.Evaluates v := by
  induction t generalizing u v with
  | var i s => cases hs
  | lam x τ b s => cases hs
  | app t₁ t₂ s ih₁ ih₂ =>
      obtain ⟨x, τ, b, s', rfl, h₂, hr⟩ | ⟨t₁', h₁, rfl⟩ | ⟨_, t₂', h₂, rfl⟩ := step_app_cases hs
      · exact .app .lam (evaluates_self h₂) hr h
      · cases h with
        | app hf hw hr hv => exact .app (ih₁ h₁ hf) hw hr hv
      · cases h with
        | app hf hw hr hv => exact .app hf (ih₂ h₂ hw) hr hv

theorem Run.evaluates {n : Nat} {t v : Term} (h : Run n t v) (hv : v.isValue) : t.Evaluates v := by
  induction h with
  | refl => exact evaluates_self hv
  | cons hs _ ih => exact .of_step hs (ih hv)

end Term

/-- **Big steps and small steps.** `Evaluates` relates `t` to the values that `Term.Run` reaches
from it, and these are the values that `evaluate` returns for some fuel. No typing is asked for,
and `t` may be open. -/
theorem big_step_iff_small_steps (t v : Term) :
    (t.Evaluates v ↔ v.isValue ∧ ∃ n, Term.Run n t v) ∧
    (t.Evaluates v ↔ v.isValue ∧ ∃ fuel, t.evaluate fuel = some (.ok v)) := by
  have hrun : t.Evaluates v ↔ v.isValue ∧ ∃ n, Term.Run n t v := by
    constructor
    · intro h
      exact ⟨h.isValue, h.run⟩
    · rintro ⟨hv, n, hr⟩
      exact hr.evaluates hv
  refine ⟨hrun, hrun.trans (and_congr_right fun hv => ?_)⟩
  constructor
  · rintro ⟨n, hr⟩
    exact ⟨n + 1, Term.evaluate_eq_ok_iff.mpr ⟨n, Nat.lt_succ_self n, hr, Term.step_of_isValue hv⟩⟩
  · rintro ⟨fuel, hfuel⟩
    obtain ⟨n, _, hr, _⟩ := Term.evaluate_eq_ok_iff.mp hfuel
    exact ⟨n, hr⟩

end Stlc
