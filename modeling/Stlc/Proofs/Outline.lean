import Stlc.Proofs.EvaluationContexts

/-!
# Outlines of terms

The outline of a term is its shape together with its indices. The spans, the names of the binders
and the types that they are annotated with are forgotten. Reduction sees nothing else of a term:
every pass over a term commutes with taking the outline, and so does the step that is made of them
(`Term.step_outline`). Since outlines are terms themselves, two terms that have the same outline
are both reduced as that one is, in lock step, for any number of steps.

## Key lemmas

* `Term.instantiate_outline`, `Term.step_outline` — the passes of a reduction, and a reduction.
* `Term.advances_outline` — a run of any length, with the flags of its steps.
* `Term.evaluate_outline`, `Term.trace_outline`, `Term.take_outline` — the loops.
-/

namespace Stlc

namespace Term

/-- The term with its spans, the names of its binders and their types forgotten. -/
def outline : Term → Term
  | var i _ => var i .nowhere
  | lam _ _ t _ => lam "" (.bool .nowhere) t.outline .nowhere
  | app t u _ => app t.outline u.outline .nowhere

@[simp] theorem isValue_outline (t : Term) : t.outline.isValue = t.isValue := by
  cases t <;> rfl

/-! ## The passes over a term -/

theorem shift_outline (t : Term) (d : Int) (c : Nat) :
    t.outline.shift d c = (t.shift d c).map outline := by
  induction t generalizing c with
  | var i s =>
      rw [outline, shift, shift]
      split
      · rfl
      · cases shiftIndex i d <;> rfl
  | lam x τ t s ih =>
      rw [outline, shift, shift, ih]
      exact map_bind_of_forall fun _ => rfl
  | app t u s iht ihu =>
      rw [outline, shift, shift, iht]
      apply map_bind_of_forall
      intro t'
      rw [ihu]
      exact map_bind_of_forall fun _ => rfl

theorem subst_outline (t u : Term) (k : Nat) :
    t.outline.subst k u.outline = (t.subst k u).map outline := by
  induction t generalizing k u with
  | var i s =>
      rw [outline, subst, subst]
      split <;> rfl
  | lam x τ t s ih =>
      rw [outline, subst, subst, shift_outline]
      apply map_bind_of_forall
      intro u'
      rw [ih]
      exact map_bind_of_forall fun _ => rfl
  | app t₁ t₂ s ih₁ ih₂ =>
      rw [outline, subst, subst, ih₁]
      apply map_bind_of_forall
      intro t₁'
      rw [ih₂]
      exact map_bind_of_forall fun _ => rfl

theorem instantiate_outline (b u : Term) :
    b.outline.instantiate u.outline = (b.instantiate u).map outline := by
  rw [instantiate, instantiate, shift_outline]
  apply map_bind_of_forall
  intro u'
  rw [subst_outline]
  apply map_bind_of_forall
  intro b'
  exact shift_outline b' (-1) 0

/-! ## Steps and runs -/

theorem step_outline (t : Term) : t.outline.step = t.step.map (Option.map outline) := by
  induction t with
  | var i s => rfl
  | lam x τ t s ih => rfl
  | app t u s iht ihu =>
      rw [outline]
      by_cases ht : t.isValue
      · by_cases hu : u.isValue
        · obtain ⟨x, τ, b, s', rfl⟩ := isValue_iff.mp ht
          rw [step_app_beta hu, outline, step_app_beta (by simpa using hu), instantiate_outline]
          exact map_bind_of_forall fun _ => rfl
        · rw [step_app_arg ht hu, step_app_arg (by simpa using ht) (by simpa using hu), ihu]
          apply map_bind_of_forall
          intro u?
          cases u? <;> rfl
      · rw [step_app_head ht, step_app_head (by simpa using ht), iht]
        apply map_bind_of_forall
        intro t?
        cases t? <;> rfl

/-- Where no rule applies, none applies to a term with the same outline. -/
theorem step_eq_none_of_outline_eq {t u : Term} (h : u.outline = t.outline)
    (ht : t.step = .ok none) : u.step = .ok none := by
  have hu := step_outline u
  rw [h, step_outline, ht] at hu
  obtain ⟨u?, hstep, hnone⟩ := map_eq_ok_iff.mp hu.symm
  rw [hstep, Option.map_eq_none_iff.mp hnone]

theorem advance_outline (t : Term) : t.outline.advance = t.advance.map (Prod.map id outline) := by
  rw [advance_eq, advance_eq, step_outline]
  rcases t.step with e | _ | u <;> rfl

/-- As many advances in a row: their flags, and the term that they lead to. -/
def advances : Nat → Term → Except ShiftError (List Bool × Term)
  | 0, t => .ok ([], t)
  | n + 1, t => do
    let (flag, t) ← t.advance
    let (flags, t) ← t.advances n
    return (flag :: flags, t)

theorem advances_outline (n : Nat) (t : Term) :
    t.outline.advances n = (t.advances n).map (Prod.map id outline) := by
  induction n generalizing t with
  | zero => rfl
  | succ n ih =>
      rw [advances, advances, advance_outline]
      apply map_bind_of_forall
      intro p
      show p.2.outline.advances n >>= _ = _
      rw [ih]
      exact map_bind_of_forall fun _ => rfl

/-! ## The loops -/

theorem evaluate_outline (fuel : Nat) (t : Term) :
    t.outline.evaluate fuel = (t.evaluate fuel).map (Except.map outline) := by
  induction fuel generalizing t with
  | zero => rfl
  | succ fuel ih =>
      rw [evaluate, evaluate, step_outline]
      rcases t.step with e | _ | u
      · rfl
      · rfl
      · exact ih u

theorem trace_outline (fuel : Nat) (t : Term) :
    t.outline.trace fuel = (t.trace fuel).map (Except.map (List.map outline)) := by
  induction fuel generalizing t with
  | zero => rfl
  | succ fuel ih =>
      rw [trace, trace, step_outline]
      rcases t.step with e | _ | u
      · rfl
      · rfl
      · show (u.outline.trace fuel).map _ = ((u.trace fuel).map _).map _
        rw [ih]
        rcases u.trace fuel with _ | e | ts <;> rfl

theorem take_outline (n : Nat) (t : Term) :
    (Reduction.ofTerm t.outline).take n =
      ((Reduction.ofTerm t).take n).map (Except.map outline) := by
  induction n generalizing t with
  | zero => rfl
  | succ n ih =>
      have hstep := step_outline t
      rcases hs : t.step with e | _ | u
      · rw [hs] at hstep
        rw [take_of_error hs, take_of_error hstep]
        rfl
      · rw [hs] at hstep
        rw [take_of_step_eq_none hs, take_of_step_eq_none hstep]
        rfl
      · rw [hs] at hstep
        rw [take_of_step hs, take_of_step hstep, ih]
        rfl

end Term

end Stlc
