import Stlc.Proofs.Typing

/-!
# Normalization

Reduction of a typed term ends, in any context. No measure of the term goes down when an argument is
copied, so the proof is by reducibility: a predicate on terms that is defined by recursion on the
type, implies that reduction ends, and asks of a function that it takes reducible values to
reducible results.

A free variable of the context is no value, so what a substitution puts in the place of a binder is
never stuck, while a stuck term, of whatever type, is reducible just because nothing happens to it
any more (`Term.Stuck.reducible`). That is what makes the argument work for open terms.

The relation `Reduces` knows no bound on indices. `Term.Normalizing.exists_run` takes the result to
`step`, which may give up on the way.
-/

namespace Stlc

open Relation (ReflTransGen)

namespace Term

/-- Reduction ends at some term, a value or a stuck one. -/
def Normalizing (t : Term) : Prop := ∃ u, ReflTransGen Reduces t u ∧ (u.isValue ∨ u.Stuck)

theorem Reduces.normalizing_iff {t u : Term} (h : t.Reduces u) :
    t.Normalizing ↔ u.Normalizing := by
  constructor
  · rintro ⟨v, hv, hend⟩
    rcases ReflTransGen.cases_head hv with rfl | ⟨u', hu', hv⟩
    · exact absurd hend (not_or.mpr ⟨h.not_isValue, h.not_stuck⟩)
    · obtain rfl := h.deterministic hu'
      exact ⟨v, hv, hend⟩
  · rintro ⟨v, hv, hend⟩
    exact ⟨v, .head h hv, hend⟩

/-! ## Reducible terms -/

/-- Reduction ends, and if the type is that of a function, reducible values are taken to reducible
results. -/
def Reducible : Ty → Term → Prop
  | .bool _, t => t.Normalizing
  | .arrow σ τ _, t =>
    t.Normalizing ∧ ∀ v s, v.isValue → Reducible σ v → Reducible τ (app t v s)

theorem Reducible.normalizing {τ : Ty} {t : Term} (h : Reducible τ t) : t.Normalizing := by
  cases τ with
  | bool s => exact h
  | arrow σ τ s => exact h.1

theorem Reduces.reducible_iff {τ : Ty} {t u : Term} (h : t.Reduces u) :
    Reducible τ t ↔ Reducible τ u := by
  induction τ generalizing t u with
  | bool s => exact h.normalizing_iff
  | arrow σ τ s _ ih =>
      refine and_congr h.normalizing_iff ?_
      refine forall_congr' fun v => forall_congr' fun s => ?_
      exact forall_congr' fun _ => forall_congr' fun _ => ih (.head h)

theorem reducible_iff_of_reaches {τ : Ty} {t u : Term} (h : ReflTransGen Reduces t u) :
    Reducible τ t ↔ Reducible τ u := by
  induction h with
  | refl => exact Iff.rfl
  | tail _ hs ih => exact ih.trans hs.reducible_iff

/-- A stuck term is reducible at every type: applied to anything, it is still stuck. -/
theorem Stuck.reducible {τ : Ty} {t : Term} (h : t.Stuck) : Reducible τ t := by
  induction τ generalizing t with
  | bool s => exact ⟨t, .refl, .inr h⟩
  | arrow σ τ s _ ih => exact ⟨⟨t, .refl, .inr h⟩, fun v s' _ _ => ih (.head h)⟩

/-- Head and argument are reduced one after the other, and each may get stuck. -/
theorem Reducible.app {σ τ : Ty} {t u : Term} {s' : Span} (s : Span)
    (ht : Reducible (.arrow σ τ s') t) (hu : Reducible σ u) : Reducible τ (.app t u s) := by
  obtain ⟨f, htf, hf⟩ := ht.normalizing
  have hhead : ReflTransGen Reduces (.app t u s) (.app f u s) :=
    htf.lift (Term.app · u s) fun _ _ h => .head h
  refine (reducible_iff_of_reaches hhead).mpr ?_
  rcases hf with hf | hf
  · obtain ⟨a, hua, ha⟩ := hu.normalizing
    have harg : ReflTransGen Reduces (.app f u s) (.app f a s) :=
      hua.lift (Term.app f · s) fun _ _ h => .arg hf h
    refine (reducible_iff_of_reaches harg).mpr ?_
    rcases ha with ha | ha
    · exact ((reducible_iff_of_reaches htf).mp ht).2 a s ha ((reducible_iff_of_reaches hua).mp hu)
    · exact (Stuck.arg hf ha).reducible
  · exact (Stuck.head hf).reducible

end Term

/-! ## Typed terms are reducible -/

/-- A typed term under a substitution by reducible terms is reducible. The substitution is
generalised, since under a binder it gets the argument in front. -/
theorem HasType.reducible {Γ : Context} {t : Term} {τ : Ty} {θ : Substitution} (h : HasType Γ t τ)
    (hθ : ∀ i σ s, Γ.typeAt? i = some σ → Term.Reducible σ (θ i s)) :
    Term.Reducible τ (t.substAll θ) := by
  induction h generalizing θ with
  | var hi => exact hθ _ _ _ hi
  | @lam Γ x σ t s τ _ ih =>
      refine ⟨⟨_, .refl, .inl rfl⟩, ?_⟩
      intro v s' hv hred
      have hbeta : (Term.app ((Term.lam x σ t s).substAll θ) v s').Reduces
          ((t.substAll θ.lift).contract v) := .beta hv
      rw [hbeta.reducible_iff, Term.substAll_lift_contract]
      apply ih
      intro i ρ s hi
      cases i with
      | zero =>
          cases hi
          exact hred
      | succ i => exact hθ i ρ s hi
  | app _ _ iht ihu => exact (iht hθ).app _ (ihu hθ)

theorem HasType.normalizing {Γ : Context} {t : Term} {τ : Ty} (h : HasType Γ t τ) :
    t.Normalizing := by
  -- Variables are stuck, hence reducible, and so the substitution of variables by themselves is.
  have hvar : ∀ i σ s, Γ.typeAt? i = some σ → Term.Reducible σ (.var i s) :=
    fun i σ s _ => Term.Stuck.var.reducible
  have hred := h.reducible hvar
  rw [Term.substAll_var] at hred
  exact hred.normalizing

/-! ## The loops end -/

/-- Where reduction ends, so does every loop around `step`, at the same term or before it. -/
theorem Term.Normalizing.exists_run {t : Term} (h : t.Normalizing) :
    ∃ n u, Term.Run n t u ∧ u.Halted := by
  obtain ⟨v, hv, hend⟩ := h
  induction hv using ReflTransGen.head_induction_on with
  | refl =>
      refine ⟨0, v, .refl, fun u hu => ?_⟩
      rw [Term.step_eq_none_iff.mpr hend] at hu
      cases hu
  | @head t w hs _ ih =>
      rcases hs.step with hw | ⟨e, he⟩
      · obtain ⟨n, u, hr, hu⟩ := ih
        exact ⟨n + 1, u, .cons hw hr, hu⟩
      · refine ⟨0, t, .refl, fun u hu => ?_⟩
        rw [he] at hu
        cases hu

/-- A sequence of steps without an end runs through everything that a run reaches. -/
theorem Term.Run.eq_of_sequence {n : Nat} {t u : Term} (h : Term.Run n t u) {f : Nat → Term}
    (h0 : f 0 = t) (hf : ∀ i, (f i).step = .ok (some (f (i + 1)))) : f n = u := by
  induction h generalizing f with
  | refl => exact h0
  | cons hs _ ih =>
      apply ih (f := fun i => f (i + 1))
      · have := hf 0
        rw [h0, hs] at this
        cases this
        rfl
      · exact fun i => hf (i + 1)

/-- **Normalization.** The run of a term that `typeOf` accepts under `structural` ends, in any `Γ`:
after `n` steps `step` gives `none`, or an error that is `IsOverflow` because `Γ` and the binders of
the term reach `indexLimit`. So `evaluate` and `trace` have one answer for every fuel past `n`, and
`Reduction.take` lists no more than `n + 1` states. The bound `n` is that of
`HasType.normalizing`, which covers open terms. -/
theorem normalization (Γ : Context) (t : Term) (τ : Ty) (h : t.typeOf .structural Γ = .ok τ) :
    ∃ n u, Term.Run n t u ∧
      (u.step = .ok none ∨
        ∃ e, u.step = .error e ∧ e.IsOverflow ∧ indexLimit ≤ Γ.size + u.lams) ∧
      (∀ f : Nat → Term, f 0 = t → ∃ i, (f i).step ≠ .ok (some (f (i + 1)))) ∧
      (∃ r, ∀ fuel, n < fuel → t.evaluate fuel = some r) ∧
      (∃ r, ∀ fuel, n < fuel → t.trace fuel = some r) ∧
      (∀ m, n < m → (Reduction.ofTerm t).take m = (Reduction.ofTerm t).take (n + 1)) := by
  have ht : HasType Γ t τ.eraseSpans := .of_typeOf h
  obtain ⟨n, u, hr, hu⟩ := ht.normalizing.exists_run
  refine ⟨n, u, hr, ?_, ?_, hr.evaluate_eq hu, hr.trace_eq hu, hr.take_eq hu⟩
  · rcases hu.cases with hs | ⟨e, hs⟩
    · exact .inl hs
    · refine .inr ⟨e, hs, Term.step_eq_error hs, Nat.le_of_not_lt fun hlt => ?_⟩
      obtain ⟨r, hr'⟩ := Term.step_isOk (hr.hasType ht).scoped hlt
      rw [hs] at hr'
      cases hr'
  · intro f h0
    refine Classical.byContradiction fun hf => ?_
    have hf' : ∀ i, (f i).step = .ok (some (f (i + 1))) :=
      fun i => Classical.byContradiction fun hi => hf ⟨i, hi⟩
    have hn := hf' n
    rw [hr.eq_of_sequence h0 hf'] at hn
    exact hu _ hn

/-- A function that uses its argument twice, applied in a context to a function of that context. -/
theorem normalization_twice :
    let bool : Ty := .bool .nowhere
    let Γ : Context := .ofList [.untyped "y", .typed "f" (.arrow bool bool .nowhere)]
    let twice : Term := .lam "g" (.arrow bool bool .nowhere) (.lam "x" bool (.app
      (.var 1 .nowhere) (.app (.var 1 .nowhere) (.var 0 .nowhere) .nowhere) .nowhere) .nowhere)
      .nowhere
    let t : Term := .app twice (.lam "z" bool (.app (.var 1 .nowhere) (.var 0 .nowhere) .nowhere)
      .nowhere) .nowhere
    t.typeOf .structural Γ = .ok (.arrow bool bool .nowhere) ∧
      ∃ n r, ∀ fuel, n < fuel → t.evaluate fuel = some r := by
  intro bool Γ twice t
  have ht : t.typeOf .structural Γ = .ok (.arrow bool bool .nowhere) := rfl
  obtain ⟨n, _, _, _, _, ⟨r, hr⟩, _⟩ := normalization Γ t _ ht
  exact ⟨ht, n, r, hr⟩

end Stlc
