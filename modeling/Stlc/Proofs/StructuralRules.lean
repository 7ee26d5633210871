import Stlc.Proofs.Typing

/-!
# Structural rules of typing

What typing says about a term depends on what its free variables stand for, and on nothing else of
the context. Bindings that are put between others, of any names and with or without types, change
nothing, once the term is shifted by as many as they are: `typing_weakening`. A variable of a type
may be replaced by any term of that type: `typing_substitution`.

Weakening is about both rules for applications and about the very type that is computed, its spans
included. A substitution keeps the type up to spans only, since the replacement brings its own.

## Key lemmas

* `Term.typeOf_rename` — a renamed term has the types of the term, where each variable has.
* `Stack.get?_raise` — a shift finds every binding again behind those that were inserted.
* `HasType.substAll_single` — a replacement of the type of the variable keeps all types.
-/

namespace Stlc

variable {rule : ApplicationRule} {Γ Δ : Context}

/-! ## Weakening -/

/-- What was at an index is found at the raised one, if some entries are inserted. -/
theorem Stack.get?_raise {α : Type} (inner new outer : List α) (i : Nat) :
    (mk (inner ++ (new ++ outer))).get? (Renaming.raise new.length inner.length i) =
      (mk (inner ++ outer)).get? i := by
  simp only [get?, Renaming.raise]
  by_cases hi : i < inner.length
  · rw [if_pos hi, List.getElem?_append_left hi, List.getElem?_append_left hi]
  · rw [if_neg hi, List.getElem?_append_right (by omega), List.getElem?_append_right (by omega),
      List.getElem?_append_right (by omega)]
    congr 1
    omega

/-- Typing goes along with a renaming, in both directions, if every variable and the one it becomes
have the same type or both none. -/
theorem Term.typeOf_rename {t : Term} {ρ : Renaming} {τ : Ty}
    (hρ : ∀ i, (Δ.get? (ρ i)).bind Binding.type? = (Γ.get? i).bind Binding.type?) :
    (t.rename ρ).typeOf rule Δ = .ok τ ↔ t.typeOf rule Γ = .ok τ := by
  induction t generalizing Γ Δ ρ τ with
  | var i s =>
      rw [rename, typeOf, typeOf, Context.typeOf_eq_ok_iff, Context.typeOf_eq_ok_iff, hρ i]
  | lam x σ t s ih =>
      -- The binder is one more variable, which both contexts declare alike.
      have hlift : ∀ i, ((Δ.push (.typed x σ)).get? (ρ.lift i)).bind Binding.type? =
          ((Γ.push (.typed x σ)).get? i).bind Binding.type? := by
        intro i
        cases i with
        | zero => rfl
        | succ i => exact hρ i
      simp only [rename, typeOf, bind_pure_eq_ok_iff, ih hlift]
  | app t u s iht ihu => simp only [rename, typeOf_app_eq_ok_iff, iht hρ, ihu hρ]

/-- **Weakening of `typeOf`**, for either rule: with `new` put between `outer` and `inner`, the
shifted term has the types that `t` had, and no others. The names and the types of `new` are
arbitrary. It is `Term.typeOf_rename` at `Renaming.raise`. -/
theorem typing_weakening (rule : ApplicationRule) (outer new inner : List Binding) {t u : Term}
    (h : t.shift new.length inner.length = .ok u) (τ : Ty) :
    u.typeOf rule (.ofList (outer ++ new ++ inner)) = .ok τ ↔
      t.typeOf rule (.ofList (outer ++ inner)) = .ok τ := by
  have hget : ∀ i, (Stack.ofList (outer ++ new ++ inner)).get?
      (Renaming.raise new.length inner.length i) = (Stack.ofList (outer ++ inner)).get? i := by
    intro i
    have hraise := Stack.get?_raise inner.reverse new.reverse outer.reverse i
    simpa only [Stack.ofList, List.reverse_append, List.length_reverse] using hraise
  rw [Term.shift_eq_ok h]
  apply Term.typeOf_rename
  intro i
  rw [hget i]

/-- The new bindings hide the name of another one, and one of them has no type. The term mentions
variables on either side of them, under a binder. -/
theorem typing_weakening_hidden_name :
    let bool : Ty := .bool .nowhere
    let outer : List Binding := [.typed "f" (.arrow bool bool ⟨4, 16⟩)]
    let new : List Binding := [.untyped "f", .typed "x" (.arrow bool bool .nowhere)]
    let inner : List Binding := [.typed "x" bool]
    let var : Nat → Term := (.var · .nowhere)
    let t : Term := .lam "f" bool (.app (var 2) (var 1) .nowhere) ⟨0, 9⟩
    let u : Term := .lam "f" bool (.app (var 4) (var 1) .nowhere) ⟨0, 9⟩
    t.shift new.length inner.length = .ok u ∧
      u.typeOf .structural (.ofList (outer ++ new ++ inner)) = .ok (.arrow bool bool ⟨0, 9⟩) := by
  intro bool outer new inner var t u
  have h : t.shift new.length inner.length = .ok u := by cbv
  exact ⟨h, (typing_weakening .structural outer new inner h _).mpr rfl⟩

/-! ## Substitution -/

/-- A variable may be replaced by a term of its type. -/
theorem HasType.substAll_single {t r : Term} {j : Nat} {σ τ : Ty} (ht : HasType Γ t τ)
    (hj : Γ.typeAt? j = some σ) (hr : HasType Γ r σ) : HasType Γ (t.substAll (.single j r)) τ := by
  refine ht.substAll ?_
  intro i ρ s hi
  rw [Substitution.single]
  by_cases hij : i = j
  · subst hij
    rw [if_pos rfl]
    rw [hj] at hi
    cases hi
    exact hr
  · rw [if_neg hij]
    exact .var hi

/-- **The substitution lemma.** If `Γ` declares `σ` for the index `j` and `typeOf` finds `σ` for
`r`, up to spans, then `subst j r` keeps the type that `typeOf` finds for `t`, up to spans.
`HasType.substAll_single` is the induction, where `subst` has become `substAll`. -/
theorem typing_substitution {j : Nat} {x : String} {σ σ' τ : Ty} {t r u : Term}
    (hj : Γ.get? j = some (.typed x σ)) (hr : r.typeOf .structural Γ = .ok σ') (hσ : σ'.sameAs σ)
    (ht : t.typeOf .structural Γ = .ok τ) (hu : t.subst j r = .ok u) :
    ∃ τ', u.typeOf .structural Γ = .ok τ' ∧ τ'.sameAs τ := by
  have hdeclared : Γ.typeAt? j = some σ.eraseSpans := by
    rw [Context.typeAt?, hj]
    rfl
  have hreplacement : HasType Γ r σ.eraseSpans := by
    rw [← (Ty.sameAs_iff σ' σ).mp hσ]
    exact .of_typeOf hr
  rw [Term.subst_eq_ok hu]
  exact ((HasType.of_typeOf ht).substAll_single hdeclared hreplacement).typeOf_sameAs

/-- The replacement has a free variable and a binder, is carried under another binder, and has its
type from another text than the variable. -/
theorem typing_substitution_under_binder :
    let bool : Ty := .bool .nowhere
    let function : Ty := .arrow bool bool .nowhere
    let Γ : Context := .ofList [.typed "g" function, .typed "f" function]
    let var : Nat → Term := (.var · .nowhere)
    let app : Term → Term → Term := (.app · · .nowhere)
    let t : Term := .lam "x" bool (app (var 1) (app (var 2) (var 0))) .nowhere
    let r : Term := .lam "y" bool (app (var 2) (var 0)) ⟨0, 9⟩
    let u : Term := .lam "x" bool
      (app (.lam "y" bool (app (var 3) (var 0)) ⟨0, 9⟩) (app (var 2) (var 0))) .nowhere
    t.subst 0 r = .ok u ∧ ∃ τ, u.typeOf .structural Γ = .ok τ ∧ τ.sameAs function := by
  intro bool function Γ var app t r u
  have hr : r.typeOf .structural Γ = .ok (.arrow bool bool ⟨0, 9⟩) := rfl
  have ht : t.typeOf .structural Γ = .ok function := rfl
  have hu : t.subst 0 r = .ok u := rfl
  exact ⟨hu, typing_substitution (x := "f") rfl hr rfl ht hu⟩

end Stlc
