import Stlc.Proofs.EvaluationContexts
import Stlc.Proofs.SubstitutionLaws

/-!
# Reduction in another context

A reduction does not depend on what the free variables stand for. If they are renumbered, or one of
them is replaced by a term, then the reduct is the old one with its variables renumbered or replaced
in the same way, and what was a value still is one. A stuck term stays stuck when its variables are
renumbered; when they are replaced, it may be free to reduce.

The passes that renumber and replace need indices, and the shifted term may need larger ones for its
step than the term did. The main statement, `reduction_stable`, says for each pass that it carries a
step along unless indices run out, and how many indices are enough.

## Key lemmas

* `Term.Reduces.substAll`, `Term.Reduces.rename` — the relation, where nothing runs out.
* `Term.step_shift`, `Term.step_subst` — one step, with the passes as they are performed.
* `Term.Run.shift`, `Term.evaluate_shift` — all steps of a run, and what it ends with.
* `Term.step_isOk_of_depth` — indices enough for a step.
-/

namespace Stlc

namespace Term

/-! ## The relation -/

theorem isValue_substAll {t : Term} (h : t.isValue) (σ : Substitution) :
    (t.substAll σ).isValue := by
  obtain ⟨x, τ, b, s, rfl⟩ := isValue_iff.mp h
  rfl

theorem isValue_rename {t : Term} (h : t.isValue) (ρ : Renaming) : (t.rename ρ).isValue := by
  rw [rename_eq_substAll]
  exact isValue_substAll h _

theorem Reduces.substAll {t u : Term} (h : t.Reduces u) (σ : Substitution) :
    (t.substAll σ).Reduces (u.substAll σ) := by
  induction h with
  | beta hu =>
      rw [substAll_contract]
      exact .beta (isValue_substAll hu σ)
  | head _ ih => exact .head ih
  | arg ht _ ih => exact .arg (isValue_substAll ht σ) ih

theorem Reduces.rename {t u : Term} (h : t.Reduces u) (ρ : Renaming) :
    (t.rename ρ).Reduces (u.rename ρ) := by
  rw [rename_eq_substAll, rename_eq_substAll]
  exact h.substAll _

theorem Stuck.rename {t : Term} (h : t.Stuck) (ρ : Renaming) : (t.rename ρ).Stuck := by
  induction h with
  | var => exact .var
  | head _ ih => exact .head ih
  | arg ht _ ih => exact .arg (isValue_rename ht ρ) ih

/-! ## One step -/

/-- What a pass makes of `t` is stepped to what it makes of `t'`. -/
def CarriesStep (pass : Term → Except ShiftError Term) (t t' : Term) : Prop :=
  ∃ u u', pass t = .ok u ∧ pass t' = .ok u' ∧ u.step = .ok (some u')

theorem Reduces.step_or_overflows {t u : Term} (h : t.Reduces u) :
    t.step = .ok (some u) ∨ Overflows t.step := by
  rcases h.step with h | ⟨e, h⟩
  · exact .inl h
  · exact .inr ⟨e, h, step_eq_error h⟩

/-- A step puts no index out of range. -/
theorem HasIndexPast.lt_of_step {t u : Term} {c : Nat} (h : t.step = .ok (some u))
    (ht : ∀ i, t.HasIndexPast c i → i < indexLimit) {i : Nat} (hi : u.HasIndexPast c i) :
    i < indexLimit := by
  induction t generalizing u with
  | var j s => cases h
  | lam x τ t s ih => cases h
  | app t₁ t₂ s ih₁ ih₂ =>
      obtain ⟨x, τ, b, s', rfl, h₂, hu⟩ | ⟨t₁', h₁, rfl⟩ | ⟨h₁, t₂', h₂, rfl⟩ := step_app_cases h
      · exact inRange_of_instantiate hu i (hi.mono (Nat.zero_le c))
      · rcases hi with hi | hi
        · exact ih₁ h₁ (fun j hj => ht j (.inl hj)) hi
        · exact ht i (.inr hi)
      · rcases hi with hi | hi
        · exact ht i (.inl hi)
        · exact ih₂ h₂ (fun j hj => ht j (.inr hj)) hi

/-- The shifted term is stepped to the shifted reduct, which there are indices for if there are for
the step. -/
theorem step_shift {t t' u : Term} {d c : Nat} (h : t.step = .ok (some t'))
    (hu : t.shift d c = .ok u) :
    (∃ u', t'.shift d c = .ok u' ∧ u.step = .ok (some u')) ∨ Overflows u.step := by
  have hreduces : u.Reduces (t'.rename (.raise d c)) := by
    rw [shift_eq_ok hu]
    exact (Reduces.of_step h).rename _
  rcases hreduces.step_or_overflows with hstep | hover
  · have hroom : ∃ u', t'.shift d c = .ok u' := by
      rw [shift_isOk_iff]
      intro i hi
      have hi' : (t'.rename (.raise d c)).HasIndexPast c (i + d) :=
        (hasIndexPast_rename_raise (Nat.le_refl c) (Nat.le_add_right c d)).mpr ⟨i, hi, rfl⟩
      have := hi'.lt_of_step hstep fun j hj => hj.lt_of_shift hu
      omega
    obtain ⟨u', hu'⟩ := hroom
    refine .inl ⟨u', hu', ?_⟩
    rw [shift_eq_ok hu']
    exact hstep
  · exact .inr hover

theorem step_shift_of_none {t u : Term} {d c : Nat} (h : t.step = .ok none)
    (hu : t.shift d c = .ok u) : u.step = .ok none := by
  rw [shift_eq_ok hu, step_eq_none_iff]
  rcases step_eq_none_iff.mp h with ht | ht
  · exact .inl (isValue_rename ht _)
  · exact .inr (ht.rename _)

/-- A reduct may nest deeper than the term did, and then need more indices for the replacement. -/
theorem step_subst {t t' r u u' : Term} {k : Nat} (h : t.step = .ok (some t'))
    (hu : t.subst k r = .ok u) (hu' : t'.subst k r = .ok u') :
    u.step = .ok (some u') ∨ Overflows u.step := by
  rw [subst_eq_ok hu, subst_eq_ok hu']
  exact ((Reduces.of_step h).substAll _).step_or_overflows

theorem carriesStep_shift {t t' : Term} (d c : Nat) (h : t.step = .ok (some t')) :
    CarriesStep (·.shift d c) t t' ∨ Overflows (do (← t.shift d c).step) := by
  cases hu : t.shift d c with
  | error e => exact .inr (Overflows.bind ⟨e, rfl, shift_natCast_eq_error hu⟩ _)
  | ok u =>
      rcases step_shift h hu with ⟨u', hu', hstep⟩ | hover
      · exact .inl ⟨u, u', hu, hu', hstep⟩
      · exact .inr hover

theorem carriesStep_subst {t t' : Term} (k : Nat) (r : Term) (h : t.step = .ok (some t')) :
    CarriesStep (·.subst k r) t t' ∨ Overflows (do (← t.subst k r).step) ∨
      Overflows (t'.subst k r) := by
  cases hu : t.subst k r with
  | error e => exact .inr (.inl (Overflows.bind ⟨e, rfl, subst_eq_error hu⟩ _))
  | ok u =>
      cases hu' : t'.subst k r with
      | error e => exact .inr (.inr ⟨e, rfl, subst_eq_error hu'⟩)
      | ok u' =>
          rcases step_subst h hu hu' with hstep | hover
          · exact .inl ⟨u, u', hu, hu', hstep⟩
          · exact .inr (.inl hover)

/-! ## Indices enough -/

theorem Reduces.depth_le {t u : Term} (h : t.Reduces u) : u.depth ≤ 2 * t.depth := by
  induction h with
  | @beta x τ b s' u s _ =>
      have := depth_contract_le b u
      simp only [depth]
      omega
  | head _ ih =>
      simp only [depth]
      omega
  | arg _ _ ih =>
      simp only [depth]
      omega

/-- A redex nests at most as deep as the term, and its body and its argument no deeper than it. -/
theorem step_isOk_of_depth {t : Term} {n : Nat} (h : t.Scoped n)
    (hn : n + 2 * t.depth ≤ indexLimit) : ∃ r, t.step = .ok r := by
  rcases hs : t.step with e | r
  · have herr : t.advance = .error e := by
      rw [advance_eq, hs]
      rfl
    obtain ⟨E, r, rfl, hr⟩ := advance_error_iff.mp herr
    obtain ⟨hbody, harg⟩ := (scoped_app ..).mp (EvalContext.scoped_of_fill h)
    have hdepth : max (r.body.depth + 1) r.arg.depth ≤ (E.fill r.toTerm).depth :=
      E.depth_le_fill r.toTerm
    rw [Redex.contract, instantiate_isOk ((scoped_lam ..).mp hbody) harg (by omega)] at hr
    cases hr
  · exact ⟨r, rfl⟩

theorem subst_isOk {t r : Term} {n : Nat} (k : Nat) (hr : r.Scoped n)
    (hn : n + t.depth + r.depth ≤ indexLimit) : ∃ u, t.subst k r = .ok u := by
  rw [subst_isOk_iff]
  intro i m hi hm
  have := hi.lt_of_scoped hr
  omega

theorem carriesStep_shift_of_depth {t t' : Term} {n : Nat} (d c : Nat)
    (h : t.step = .ok (some t')) (ht : t.Scoped n) (hn : n + d + 2 * t.depth ≤ indexLimit) :
    CarriesStep (·.shift d c) t t' := by
  obtain ⟨u, hu⟩ := shift_isOk (c := c) ht (by omega : n + d + t.depth ≤ indexLimit)
  have hdepth : u.depth = t.depth := by rw [shift_eq_ok hu, depth_rename]
  have hscoped : u.Scoped (n + d) := by
    rw [shift_eq_ok hu]
    exact ht.rename_raise
  obtain ⟨r, hr⟩ := step_isOk_of_depth hscoped (by omega)
  rcases step_shift h hu with ⟨u', hu', hstep⟩ | ⟨e, he, _⟩
  · exact ⟨u, u', hu, hu', hstep⟩
  · rw [hr] at he
    cases he

theorem carriesStep_subst_of_depth {t t' r : Term} {n : Nat} (k : Nat)
    (h : t.step = .ok (some t')) (ht : t.Scoped n) (hr : r.Scoped n)
    (hn : n + 2 * (t.depth + r.depth) ≤ indexLimit) : CarriesStep (·.subst k r) t t' := by
  have hreduct := (Reduces.of_step h).depth_le
  obtain ⟨u, hu⟩ := subst_isOk (t := t) k hr (by omega)
  obtain ⟨u', hu'⟩ := subst_isOk (t := t') k hr (by omega)
  have hdepth : u.depth ≤ t.depth + r.depth := by
    rw [subst_eq_ok hu]
    exact depth_substAll_single_le t r k
  have hscoped : u.Scoped n := by
    rw [subst_eq_ok hu]
    exact ht.substAll_single hr
  obtain ⟨v, hv⟩ := step_isOk_of_depth hscoped (by omega)
  rcases step_subst h hu hu' with hstep | ⟨e, he, _⟩
  · exact ⟨u, u', hu, hu', hstep⟩
  · rw [hv] at he
    cases he

/-! ## Runs -/

/-- A run is made again by the shifted terms, to its end or to where a step runs out of indices. -/
theorem Run.shift {n : Nat} {t v u : Term} {d c : Nat} (h : Run n t v) (hu : t.shift d c = .ok u) :
    (∃ v', v.shift d c = .ok v' ∧ Run n u v') ∨
      ∃ m w, m < n ∧ Run m u w ∧ Overflows w.step := by
  induction h generalizing u with
  | refl => exact .inl ⟨u, hu, .refl⟩
  | cons hs _ ih =>
      rcases step_shift hs hu with ⟨u', hu', hstep⟩ | hover
      · rcases ih hu' with ⟨v', hv', hr⟩ | ⟨m, w, hm, hr, hover⟩
        · exact .inl ⟨v', hv', .cons hstep hr⟩
        · exact .inr ⟨m + 1, w, Nat.succ_lt_succ hm, .cons hstep hr, hover⟩
      · exact .inr ⟨0, u, Nat.succ_pos _, .refl, hover⟩

theorem evaluate_shift {fuel : Nat} {t v u : Term} {d c : Nat}
    (h : t.evaluate fuel = some (.ok v)) (hu : t.shift d c = .ok u) :
    (∃ v', v.shift d c = .ok v' ∧ u.evaluate fuel = some (.ok v')) ∨
      ∃ e, u.evaluate fuel = some (.error e) ∧ e.IsOverflow := by
  obtain ⟨n, hn, hr, hv⟩ := evaluate_eq_ok_iff.mp h
  rcases hr.shift hu with ⟨v', hv', hr'⟩ | ⟨m, w, hm, hr', e, he, hover⟩
  · exact .inl ⟨v', hv', evaluate_eq_ok_iff.mpr ⟨n, hn, hr', step_shift_of_none hv hv'⟩⟩
  · exact .inr ⟨e, hr'.evaluate_eq_error he (hm.trans hn), hover⟩

end Term

/-- `step` commutes with `shift d c` for `d ≥ 0` and with `subst k r`: the step is carried over
(`CarriesStep`) unless an index `Overflows`, and none does if the size of the context, `d` and
twice the depths add up to `indexLimit` at most. A term that `step` leaves alone is left alone
after a shift, though not after a substitution, which may bring in a value. By `Term.Run.shift`
the same is true of whole runs, and so of `evaluate`. -/
theorem reduction_stable :
    (∀ (t t' : Term) (d c : Nat), t.step = .ok (some t') →
      (Term.CarriesStep (·.shift d c) t t' ∨ Overflows (do (← t.shift d c).step)) ∧
      ∀ n, t.Scoped n → n + d + 2 * t.depth ≤ indexLimit →
        Term.CarriesStep (·.shift d c) t t') ∧
    (∀ (t t' r : Term) (k : Nat), t.step = .ok (some t') →
      (Term.CarriesStep (·.subst k r) t t' ∨ Overflows (do (← t.subst k r).step) ∨
        Overflows (t'.subst k r)) ∧
      ∀ n, t.Scoped n → r.Scoped n → n + 2 * (t.depth + r.depth) ≤ indexLimit →
        Term.CarriesStep (·.subst k r) t t') ∧
    (∀ (t : Term) (d c : Nat), t.step = .ok none →
      (∃ u, t.shift d c = .ok u ∧ u.step = .ok none) ∨ Overflows (t.shift d c)) ∧
    (∀ (t u : Term) (d c : Nat), t.shift d c = .ok u →
      (∀ n v, Term.Run n t v → (∃ v', v.shift d c = .ok v' ∧ Term.Run n u v') ∨
        ∃ m w, m < n ∧ Term.Run m u w ∧ Overflows w.step) ∧
      ∀ fuel v, t.evaluate fuel = some (.ok v) →
        (∃ v', v.shift d c = .ok v' ∧ u.evaluate fuel = some (.ok v')) ∨
          ∃ e, u.evaluate fuel = some (.error e) ∧ e.IsOverflow) := by
  refine ⟨?_, ?_, ?_, ?_⟩
  · intro t t' d c h
    exact ⟨Term.carriesStep_shift d c h, fun n ht => Term.carriesStep_shift_of_depth d c h ht⟩
  · intro t t' r k h
    exact ⟨Term.carriesStep_subst k r h, fun n ht hr => Term.carriesStep_subst_of_depth k h ht hr⟩
  · intro t d c h
    cases hu : t.shift d c with
    | error e => exact .inr ⟨e, rfl, Term.shift_natCast_eq_error hu⟩
    | ok u => exact .inl ⟨u, rfl, Term.step_shift_of_none h hu⟩
  · intro t u d c hu
    exact ⟨fun n v hr => hr.shift hu, fun fuel v hv => Term.evaluate_shift hv hu⟩

/-- The argument goes under a binder of the body. Of its two free variables the shift moves one, and
the substitution replaces one by an application. -/
theorem reduction_stable_under_binder :
    let bool : Ty := .bool .nowhere
    let var : Nat → Term := (.var · .nowhere)
    let app : Term → Term → Term := (.app · · .nowhere)
    let lam : String → Term → Term := (.lam · bool · .nowhere)
    let arg : Term → Term → Term := fun f g => lam "z" (app f (app g (var 0)))
    let body : Term → Term := fun u => lam "y" (app u (app (var 0) u))
    let t : Term := app (lam "x" (body (var 1))) (arg (var 1) (var 2))
    let t' : Term := body (arg (var 2) (var 3))
    let r : Term := app (var 0) (var 4)
    t.step = .ok (some t') ∧
      Term.CarriesStep (·.shift 3 1) t t' ∧ t'.shift 3 1 = .ok (body (arg (var 2) (var 6))) ∧
      Term.CarriesStep (·.subst 1 r) t t' ∧
      t'.subst 1 r = .ok (body (arg (var 2) (app (var 2) (var 6)))) ∧
      (∃ u, t'.shift 3 1 = .ok u ∧ u.step = .ok none) ∧
      (app (lam "x" (body (var 1))) (arg (var 1) (var 5))).evaluate 2 =
        some (.ok (body (arg (var 2) (var 6)))) := by
  intro bool var app lam arg body t t' r
  have ht : t.step = .ok (some t') := rfl
  have hscoped : t.Scoped 5 := by simp [t, app, lam, arg, body, var]
  have hr : r.Scoped 5 := by simp [r, app, var]
  obtain ⟨hshift, hsubst, hnone, hrun⟩ := reduction_stable
  refine ⟨ht, (hshift t t' 3 1 ht).2 5 hscoped (by decide), rfl,
    (hsubst t t' r 1 ht).2 5 hscoped hr (by decide), rfl, ?_, ?_⟩
  · rcases hnone t' 3 1 rfl with h | ⟨e, he, _⟩
    · exact h
    · cases he
  · rcases (hrun t _ 3 1 rfl).2 2 t' rfl with ⟨v', hv', heval⟩ | ⟨e, he, _⟩
    · cases hv'
      exact heval
    · cases he

end Stlc
