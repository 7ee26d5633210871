import Stlc.Proofs.FreeVariables
import Stlc.Resolve

/-!
# What resolution gives

Resolution looks at nothing of a scope but where it has the names that are free in the expression.
A change of the scope is therefore a change of the indices, which `Expr.resolveIn_substAll` states
for every substitution that carries the names along: one more binding is a renaming
(`Expr.resolveIn_insert`), as long as it hides no name that is used.

The terms that are given have their free variables in the scope (`Expr.scoped_of_resolveIn`), and
each node is where it was and of the former it was.
-/

namespace Stlc

/-! ## The innermost binding of a name -/

theorem Stack.findIdx?_push_self (scope : Stack String) (x : String) :
    (scope.push x).findIdx? (· == x) = some 0 := by
  rw [findIdx?_push, if_pos (beq_self_eq_true x)]

theorem Stack.findIdx?_push_of_ne {x y : String} (h : y ≠ x) (scope : Stack String) :
    (scope.push y).findIdx? (· == x) = (scope.findIdx? (· == x)).map (· + 1) := by
  rw [findIdx?_push, if_neg (by simpa using h)]

/-- A name is found where it was, or one place further out, if there is one more of another name. -/
theorem Stack.findIdx?_insert {x y : String} (h : y ≠ x) (inner outer : List String) :
    (mk (inner ++ y :: outer)).findIdx? (· == x) =
      ((mk (inner ++ outer)).findIdx? (· == x)).map (Renaming.raise 1 inner.length) := by
  simp only [findIdx?, List.findIdx?_append, List.findIdx?_cons, beq_eq_false_iff_ne.mpr h]
  cases hx : inner.findIdx? (· == x) with
  | none =>
      have hraise : ∀ i,
          i + 1 + inner.length = Renaming.raise 1 inner.length (i + inner.length) := by
        intro i
        rw [Renaming.raise, if_neg (by omega), Nat.add_right_comm]
      cases outer.findIdx? (· == x) with
      | none => rfl
      | some i => exact congrArg some (hraise i)
  | some i =>
      obtain ⟨hi, _⟩ := List.findIdx?_eq_some_iff_getElem.mp hx
      have hraise : i = Renaming.raise 1 inner.length i := by
        rw [Renaming.raise, if_pos hi]
      exact congrArg some hraise

theorem Stack.lt_size_of_findIdx? {α : Type} {s : Stack α} {p : α → Bool} {i : Nat}
    (h : s.findIdx? p = some i) : i < s.size := by
  obtain ⟨hi, _⟩ := List.findIdx?_eq_some_iff_getElem.mp h
  exact hi

namespace Expr

/-- The name `x` occurs outside of the abstractions that bind it. -/
def HasFree : Expr → String → Prop
  | var y _, x => y = x
  | lam y _ e _, x => y ≠ x ∧ e.HasFree x
  | app e f _, x => e.HasFree x ∨ f.HasFree x

theorem resolveIn_var_eq_ok_iff {scope : Stack String} {x : String} {s : Span} {t : Term} :
    (var x s).resolveIn scope = .ok t ↔ ∃ i, scope.findIdx? (· == x) = some i ∧ t = .var i s := by
  rw [resolveIn]
  cases scope.findIdx? (· == x) with
  | none => simp
  | some i => simp [eq_comm]

/-! ## Nodes and their variables -/

theorem span_of_resolveIn {e : Expr} {scope : Stack String} {t : Term}
    (h : e.resolveIn scope = .ok t) : t.span = e.span := by
  cases e with
  | var x s =>
      obtain ⟨i, _, rfl⟩ := resolveIn_var_eq_ok_iff.mp h
      rfl
  | lam x τ e s =>
      obtain ⟨t, _, rfl⟩ := bind_pure_eq_ok_iff.mp h
      rfl
  | app e f s =>
      obtain ⟨t, u, _, _, rfl⟩ := bind_bind_pure_eq_ok_iff.mp h
      rfl

theorem former_of_resolveIn {e : Expr} {scope : Stack String} {t : Term}
    (h : e.resolveIn scope = .ok t) : t.former = e.former := by
  cases e with
  | var x s =>
      obtain ⟨i, _, rfl⟩ := resolveIn_var_eq_ok_iff.mp h
      rfl
  | lam x τ e s =>
      obtain ⟨t, _, rfl⟩ := bind_pure_eq_ok_iff.mp h
      rfl
  | app e f s =>
      obtain ⟨t, u, _, _, rfl⟩ := bind_bind_pure_eq_ok_iff.mp h
      rfl

theorem exists_of_resolveIn_eq_var {e : Expr} {scope : Stack String} {i : Nat} {s : Span}
    (h : e.resolveIn scope = .ok (.var i s)) :
    ∃ x, e = var x s ∧ scope.findIdx? (· == x) = some i := by
  cases e with
  | var x s =>
      obtain ⟨i, hi, heq⟩ := resolveIn_var_eq_ok_iff.mp h
      cases heq
      exact ⟨x, rfl, hi⟩
  | _ => cases former_of_resolveIn h

theorem exists_of_resolveIn_eq_lam {e : Expr} {scope : Stack String} {x : String} {τ : Ty}
    {t : Term} {s : Span} (h : e.resolveIn scope = .ok (.lam x τ t s)) :
    ∃ f, e = lam x τ f s ∧ f.resolveIn (scope.push x) = .ok t := by
  cases e with
  | lam y σ f s' =>
      obtain ⟨t, ht, heq⟩ := bind_pure_eq_ok_iff.mp h
      cases heq
      exact ⟨f, rfl, ht⟩
  | _ => cases former_of_resolveIn h

theorem exists_of_resolveIn_eq_app {e : Expr} {scope : Stack String} {t u : Term} {s : Span}
    (h : e.resolveIn scope = .ok (.app t u s)) :
    ∃ f g, e = app f g s ∧ f.resolveIn scope = .ok t ∧ g.resolveIn scope = .ok u := by
  cases e with
  | app f g s' =>
      obtain ⟨t, u, ht, hu, heq⟩ := bind_bind_pure_eq_ok_iff.mp h
      cases heq
      exact ⟨f, g, rfl, ht, hu⟩
  | _ => cases former_of_resolveIn h

/-- Every free variable is one of the scope. -/
theorem scoped_of_resolveIn {e : Expr} {scope : Stack String} {t : Term}
    (h : e.resolveIn scope = .ok t) : t.Scoped scope.size := by
  induction e generalizing scope t with
  | var x s =>
      obtain ⟨i, hi, rfl⟩ := resolveIn_var_eq_ok_iff.mp h
      rw [Term.scoped_var]
      exact Stack.lt_size_of_findIdx? hi
  | lam x τ e s ih =>
      obtain ⟨t, ht, rfl⟩ := bind_pure_eq_ok_iff.mp h
      rw [Term.scoped_lam]
      exact ih ht
  | app e f s ihe ihf =>
      obtain ⟨t, u, ht, hu, rfl⟩ := bind_bind_pure_eq_ok_iff.mp h
      rw [Term.scoped_app]
      exact ⟨ihe ht, ihf hu⟩

end Expr

/-! ## Changing the scope -/

/-- If the first scope has `x` then so does the second, and the variable of the first becomes the
one of the second. -/
def Substitution.Carries (θ : Substitution) (scope scope' : Stack String) (x : String) : Prop :=
  ∀ i, scope.findIdx? (· == x) = some i → ∃ j, scope'.findIdx? (· == x) = some j ∧ θ i = .var j

/-- Under a binder its own name is carried along whatever happens outside, and any other name if it
is carried along outside. -/
theorem Substitution.Carries.lift {θ : Substitution} {scope scope' : Stack String} {x y : String}
    (h : y ≠ x → θ.Carries scope scope' x) :
    θ.lift.Carries (scope.push y) (scope'.push y) x := by
  intro i hi
  by_cases hyx : y = x
  · subst hyx
    rw [Stack.findIdx?_push_self] at hi
    cases hi
    exact ⟨0, Stack.findIdx?_push_self scope' y, rfl⟩
  · rw [Stack.findIdx?_push_of_ne hyx] at hi
    obtain ⟨k, hk, rfl⟩ := Option.map_eq_some_iff.mp hi
    obtain ⟨j, hj, hθ⟩ := h hyx k hk
    refine ⟨j + 1, ?_, ?_⟩
    · rw [Stack.findIdx?_push_of_ne hyx, hj]
      rfl
    · funext s
      show (θ k s).rename (· + 1) = _
      rw [hθ]
      rfl

namespace Expr

/-- A scope that has the names elsewhere gives the term with its variables elsewhere. -/
theorem resolveIn_substAll {e : Expr} {scope scope' : Stack String} {t : Term} {θ : Substitution}
    (h : e.resolveIn scope = .ok t) (hθ : ∀ x, e.HasFree x → θ.Carries scope scope' x) :
    e.resolveIn scope' = .ok (t.substAll θ) := by
  induction e generalizing scope scope' t θ with
  | var x s =>
      obtain ⟨i, hi, rfl⟩ := resolveIn_var_eq_ok_iff.mp h
      obtain ⟨j, hj, hij⟩ := hθ x rfl i hi
      rw [resolveIn_var_eq_ok_iff]
      exact ⟨j, hj, congrFun hij s⟩
  | lam y τ e s ih =>
      obtain ⟨t, ht, rfl⟩ := bind_pure_eq_ok_iff.mp h
      refine bind_pure_eq_ok_iff.mpr ⟨_, ih ht ?_, rfl⟩
      intro x hx
      apply Substitution.Carries.lift
      intro hyx
      exact hθ x ⟨hyx, hx⟩
  | app e f s ihe ihf =>
      obtain ⟨t, u, ht, hu, rfl⟩ := bind_bind_pure_eq_ok_iff.mp h
      have ht' := ihe ht fun x hx => hθ x (.inl hx)
      have hu' := ihf hu fun x hx => hθ x (.inr hx)
      exact bind_bind_pure_eq_ok_iff.mpr ⟨_, _, ht', hu', rfl⟩

/-- One more binding moves the variables up that count past it, if its name is not used. -/
theorem resolveIn_insert {e : Expr} {t : Term} {x : String} (inner : List String)
    {outer : List String} (h : e.resolveIn ⟨inner ++ outer⟩ = .ok t) (hx : ¬ e.HasFree x) :
    e.resolveIn ⟨inner ++ x :: outer⟩ = .ok (t.rename (.raise 1 inner.length)) := by
  rw [Term.rename_eq_substAll]
  apply resolveIn_substAll h
  intro y hy i hi
  have hxy : x ≠ y := by
    rintro rfl
    exact hx hy
  refine ⟨_, ?_, rfl⟩
  rw [Stack.findIdx?_insert hxy, hi]
  rfl

theorem resolveIn_push {e : Expr} {scope : Stack String} {t : Term} {x : String}
    (h : e.resolveIn scope = .ok t) (hx : ¬ e.HasFree x) :
    e.resolveIn (scope.push x) = .ok (t.rename (· + 1)) := by
  rw [← Renaming.raise_zero]
  exact resolveIn_insert [] h hx

end Expr

end Stlc
