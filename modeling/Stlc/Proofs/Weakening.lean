import Stlc.Proofs.Overflow
import Stlc.Proofs.References

/-!
# Weakening

A context may get one more binding at any place without a change to what an expression means, if the
binding has no name that is used. The term that the expression resolves to counts the new binding,
as a shift does: `resolution_weakening`. Abstractions inside the expression may have that name as
well, and so may other bindings of the context.

An expression that does not resolve has the same error with the new binding as without it, since
the same names are in scope (`Expr.resolveIn_eq_error_of_mem_iff`).
-/

namespace Stlc

namespace Expr

def depth : Expr → Nat
  | var .. => 0
  | lam _ _ e _ => e.depth + 1
  | app e f _ => max e.depth f.depth

theorem depth_of_resolveIn {e : Expr} {scope : Stack String} {t : Term}
    (h : e.resolveIn scope = .ok t) : t.depth = e.depth := by
  induction e generalizing scope t with
  | var x s =>
      obtain ⟨i, _, rfl⟩ := resolveIn_var_eq_ok_iff.mp h
      rfl
  | lam x τ e s ih =>
      obtain ⟨t, ht, rfl⟩ := bind_pure_eq_ok_iff.mp h
      rw [Term.depth, depth, ih ht]
  | app e f s ihe ihf =>
      obtain ⟨t, u, ht, hu, rfl⟩ := bind_bind_pure_eq_ok_iff.mp h
      rw [Term.depth, depth, ihe ht, ihf hu]

/-- There are indices for a shift as long as there are for the binders in force, for those that room
is made for and for the abstractions around a variable. -/
theorem shift_of_resolveIn {e : Expr} {scope : Stack String} {t : Term} {d : Nat} (c : Nat)
    (h : e.resolveIn scope = .ok t) (hroom : scope.size + d + e.depth ≤ indexLimit) :
    t.shift d c = .ok (t.rename (.raise d c)) := by
  rw [← depth_of_resolveIn h] at hroom
  obtain ⟨u, hu⟩ := Term.shift_isOk (scoped_of_resolveIn h) hroom
  rw [hu, Term.shift_eq_ok hu]

/-- What matters for a failure is which of the free names are in scope, not where. -/
theorem resolveIn_eq_error_of_mem_iff {e : Expr} {scope scope' : Stack String} {err : UnboundName}
    (h : ∀ x, e.HasFree x → (x ∈ scope.entries ↔ x ∈ scope'.entries)) :
    e.resolveIn scope = .error err ↔ e.resolveIn scope' = .error err := by
  induction e generalizing scope scope' with
  | var x s =>
      rw [resolveIn_var_eq_error_iff, resolveIn_var_eq_error_iff, h x rfl]
  | lam y τ e s ih =>
      rw [resolveIn, resolveIn, bind_pure_eq_error_iff, bind_pure_eq_error_iff]
      apply ih
      intro x hx
      rw [Stack.push, Stack.push, List.mem_cons, List.mem_cons]
      by_cases hxy : x = y
      · simp only [hxy, true_or]
      · exact or_congr_right (h x ⟨Ne.symm hxy, hx⟩)
  | app e f s ihe ihf =>
      have hok : (∃ t, e.resolveIn scope = .ok t) ↔ ∃ t, e.resolveIn scope' = .ok t := by
        rw [resolveIn_isOk_iff, resolveIn_isOk_iff]
        exact forall_congr' fun x => imp_congr_right fun hx => h x (.inl hx)
      have he := ihe fun x hx => h x (.inl hx)
      have hf := ihf fun x hx => h x (.inr hx)
      rw [resolveIn, resolveIn, bind_bind_pure_eq_error_iff, bind_bind_pure_eq_error_iff,
        he, hok, hf]

end Expr

/-- **Weakening of `resolve`.** With a binding `b` put between `outer` and `inner`, an expression in
which `b.name` is not free resolves to the `shift 1 inner.length` of what it was, or fails with the
error it had. The bound is needed for this shift alone; `Expr.resolveIn_insert` has none. -/
theorem resolution_weakening (outer inner : List Binding) (b : Binding) (e : Expr)
    (hb : ¬ e.HasFree b.name) (hroom : outer.length + inner.length + e.depth + 1 < indexLimit) :
    (∀ t, e.resolve (.ofList (outer ++ inner)) = .ok t →
      ∃ t', e.resolve (.ofList (outer ++ b :: inner)) = .ok t' ∧
        t.shift 1 inner.length = .ok t') ∧
    (∀ err, e.resolve (.ofList (outer ++ inner)) = .error err ↔
      e.resolve (.ofList (outer ++ b :: inner)) = .error err) := by
  have hscope : Context.names (.ofList (outer ++ inner)) =
      ⟨(inner.map Binding.name).reverse ++ (outer.map Binding.name).reverse⟩ := by
    simp [Context.names, Stack.map, Stack.ofList]
  have hscope' : Context.names (.ofList (outer ++ b :: inner)) =
      ⟨(inner.map Binding.name).reverse ++ b.name :: (outer.map Binding.name).reverse⟩ := by
    simp [Context.names, Stack.map, Stack.ofList]
  simp only [Expr.resolve, hscope, hscope']
  constructor
  · intro t ht
    have ht' := Expr.resolveIn_insert _ ht hb
    rw [List.length_reverse, List.length_map] at ht'
    refine ⟨_, ht', Expr.shift_of_resolveIn (d := 1) inner.length ht ?_⟩
    simp only [Stack.size, List.length_append, List.length_reverse, List.length_map]
    omega
  · intro err
    apply Expr.resolveIn_eq_error_of_mem_iff
    intro x hx
    have hxb : x ≠ b.name := by
      rintro rfl
      exact hb hx
    simp only [List.mem_append, List.mem_cons, hxb, false_or]

/-- The name of the new binding is bound again inside of the expression and in the context. -/
theorem resolution_weakening_repeated_name :
    let bool : Ty := .bool .nowhere
    let outer : List Binding := [.untyped "y", .untyped "x"]
    let inner : List Binding := [.untyped "z"]
    let e : Expr := .lam "x" bool (.app (.var "x" .nowhere) (.var "y" .nowhere) .nowhere) .nowhere
    ∃ t t', e.resolve (.ofList (outer ++ inner)) = .ok t ∧
      e.resolve (.ofList (outer ++ .typed "x" bool :: inner)) = .ok t' ∧
      t.shift 1 1 = .ok t' := by
  intro bool outer inner e
  have hx : ¬ e.HasFree "x" := by simp [e, Expr.HasFree]
  obtain ⟨t', ht', hshift⟩ :=
    (resolution_weakening outer inner (.typed "x" bool) e hx (by decide)).1 _ rfl
  exact ⟨_, t', rfl, ht', hshift⟩

end Stlc
