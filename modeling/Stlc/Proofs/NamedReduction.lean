import Stlc.Proofs.Reduction
import Stlc.Proofs.Resolution

/-!
# Reduction with names

An application of an abstraction can be reduced before its names are resolved: `Expr.replace` puts
the argument in the place of the name that the abstraction binds. It does so naively, and an
abstraction in between may capture a name that is free in the argument; `Expr.CaptureFree` says that
none does.

Then it makes no difference which comes first, resolution or reduction. The argument of the proof
is that replacing a name is what a substitution does to the variables that the name resolves to
(`Expr.resolveIn_replace`), under any binders that were crossed on the way.
-/

namespace Stlc

namespace Expr

/-- Puts `v` in the place of every occurrence of `x` that is not under an abstraction of that
name. -/
def replace (e : Expr) (x : String) (v : Expr) : Expr :=
  match e with
  | var y s => if y = x then v else var y s
  | lam y τ e s => if y = x then lam y τ e s else lam y τ (e.replace x v) s
  | app e f s => app (e.replace x v) (f.replace x v) s

/-- No abstraction around an occurrence of `x` that is replaced has a name that is free in `v`. -/
def CaptureFree (e : Expr) (x : String) (v : Expr) : Prop :=
  match e with
  | var .. => True
  | lam y _ e _ => y ≠ x → (e.HasFree x → ¬ v.HasFree y) ∧ e.CaptureFree x v
  | app e f _ => e.CaptureFree x v ∧ f.CaptureFree x v

/-- Replacing is substituting, if the substitution has what `v` resolves to for the variable that
`x` resolves to, and carries all other names along. -/
theorem resolveIn_replace {e v : Expr} {x : String} {scope scope' : Stack String} {t : Term}
    {θ : Substitution} (h : e.resolveIn scope = .ok t) (hcap : e.CaptureFree x v)
    (hx : e.HasFree x → ∀ i s, scope.findIdx? (· == x) = some i → v.resolveIn scope' = .ok (θ i s))
    (hθ : ∀ y, e.HasFree y → y ≠ x → θ.Carries scope scope' y) :
    (e.replace x v).resolveIn scope' = .ok (t.substAll θ) := by
  induction e generalizing scope scope' t θ with
  | var y s =>
      obtain ⟨i, hi, rfl⟩ := resolveIn_var_eq_ok_iff.mp h
      rw [replace]
      by_cases hyx : y = x
      · subst hyx
        rw [if_pos rfl]
        exact hx rfl i s hi
      · rw [if_neg hyx, resolveIn_var_eq_ok_iff]
        obtain ⟨j, hj, hij⟩ := hθ y rfl hyx i hi
        exact ⟨j, hj, congrFun hij s⟩
  | lam y τ e s ih =>
      rw [replace]
      by_cases hyx : y = x
      · -- The abstraction hides `x`, so nothing is replaced and no name in it means `x`.
        subst hyx
        rw [if_pos rfl]
        apply resolveIn_substAll h
        intro z hz
        exact hθ z hz hz.1.symm
      · rw [if_neg hyx]
        obtain ⟨t, ht, rfl⟩ := bind_pure_eq_ok_iff.mp h
        obtain ⟨hfree, hcap⟩ := hcap hyx
        refine bind_pure_eq_ok_iff.mpr ⟨_, ih ht hcap ?_ ?_, rfl⟩
        · intro hex i s' hi
          rw [Stack.findIdx?_push_of_ne hyx] at hi
          obtain ⟨k, hk, rfl⟩ := Option.map_eq_some_iff.mp hi
          have hv : v.resolveIn scope' = .ok (θ k s') := hx ⟨hyx, hex⟩ k s' hk
          exact resolveIn_push hv (hfree hex)
        · intro z hz hzx
          apply Substitution.Carries.lift
          intro hyz
          exact hθ z ⟨hyz, hz⟩ hzx
  | app e f s ihe ihf =>
      obtain ⟨t, u, ht, hu, rfl⟩ := bind_bind_pure_eq_ok_iff.mp h
      have ht' := ihe ht hcap.1 (fun h => hx (.inl h)) fun y hy => hθ y (.inl hy)
      have hu' := ihf hu hcap.2 (fun h => hx (.inr h)) fun y hy => hθ y (.inr hy)
      exact bind_bind_pure_eq_ok_iff.mpr ⟨_, _, ht', hu', rfl⟩

/-- The body of an abstraction with its name replaced is the body contracted. -/
theorem resolveIn_replace_contract {e v : Expr} {x : String} {scope : Stack String} {t u : Term}
    (ht : e.resolveIn (scope.push x) = .ok t) (hu : v.resolveIn scope = .ok u)
    (hcap : e.CaptureFree x v) : (e.replace x v).resolveIn scope = .ok (t.contract u) := by
  apply resolveIn_replace ht hcap
  · intro _ i s hi
    rw [Stack.findIdx?_push_self] at hi
    cases hi
    exact hu
  · intro y _ hyx i hi
    rw [Stack.findIdx?_push_of_ne hyx.symm] at hi
    obtain ⟨k, hk, rfl⟩ := Option.map_eq_some_iff.mp hi
    exact ⟨k, hk, rfl⟩

end Expr

/-- `Term.step` on `(\x:τ. e) v` is `Expr.replace x v` on the source side: the reduct is what
`resolve` makes of the replaced body, spans included. `CaptureFree` is all that is asked of the
names, so `x` may be bound again in `e`, in `v` or in `Γ`; `Expr.resolveIn_replace_contract` is the
induction over `e`. -/
theorem named_beta_reduction (Γ : Context) (x : String) (τ : Ty) (e v : Expr) (s s' : Span)
    (t : Term) (hv : v.former = .lam) (hcap : e.CaptureFree x v)
    (ht : (Expr.app (.lam x τ e s') v s).resolve Γ = .ok t)
    (hlams : Γ.size + t.lams < indexLimit) :
    ∃ u, t.step = .ok (some u) ∧ (e.replace x v).resolve Γ = .ok u := by
  obtain ⟨f, u, hf, hu, rfl⟩ := bind_bind_pure_eq_ok_iff.mp ht
  obtain ⟨b, hb, rfl⟩ := bind_pure_eq_ok_iff.mp hf
  refine ⟨b.contract u, ?_, Expr.resolveIn_replace_contract hb hu hcap⟩
  have hvalue : u.isValue := by
    have hformer := (Expr.former_of_resolveIn hu).trans hv
    cases u with
    | lam y σ c s => rfl
    | _ => cases hformer
  have hscoped : (Term.app (.lam x τ b s') u s).Scoped Γ.size := by
    have hnames := Expr.scoped_of_resolveIn ht
    rwa [Context.names, Stack.size_map] at hnames
  obtain ⟨r, hr⟩ := Term.step_isOk hscoped hlams
  have hreduces : (Term.app (.lam x τ b s') u s).Reduces (b.contract u) := .beta hvalue
  rcases hreduces.step with hstep | ⟨err, herr⟩
  · exact hstep
  · rw [hr] at herr
    cases herr

/-- The name is bound twice by the context and again inside of the body, and it is free in the
argument, which is moved under a binder. -/
theorem named_beta_reduction_repeated_name :
    let bool : Ty := .bool .nowhere
    let var : String → Expr := (.var · .nowhere)
    let app : Expr → Expr → Expr := (.app · · .nowhere)
    let lam : String → Expr → Expr := (.lam · bool · .nowhere)
    let Γ : Context := .ofList [.untyped "x", .untyped "f", .untyped "x"]
    let e : Expr := lam "y" (app (var "x") (lam "x" (app (var "x") (var "y"))))
    let v : Expr := lam "z" (app (var "f") (app (var "x") (var "z")))
    ∃ t u, (app (lam "x" e) v).resolve Γ = .ok t ∧ t.step = .ok (some u) ∧
      e.replace "x" v = lam "y" (app v (lam "x" (app (var "x") (var "y")))) ∧
      (e.replace "x" v).resolve Γ = .ok u := by
  intro bool var app lam Γ e v
  have hcap : e.CaptureFree "x" v := by
    simp [e, v, lam, app, var, Expr.CaptureFree, Expr.HasFree]
  obtain ⟨u, hstep, hu⟩ := named_beta_reduction Γ "x" bool e v .nowhere .nowhere _ rfl hcap rfl
    (by decide)
  exact ⟨_, u, rfl, hstep, rfl, hu⟩

end Stlc
