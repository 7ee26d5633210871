import Stlc.Proofs.Resolution
import Stlc.Proofs.Skeleton

/-!
# Alpha-equivalence

Two expressions are alpha-equivalent if they differ in the names of their binders only:
`Expr.AlphaEq` compares two abstractions by giving both binders one name that neither body mentions.
Where both expressions resolve, they are alpha-equivalent exactly if they resolve to terms with one
skeleton, and equal exactly if they resolve to equal terms (`resolution_decides_alpha_equivalence`).

Renaming a binder does not change what its body resolves to, since the name is looked up in a scope
that was renamed in the same place (`Expr.resolveIn_push_rename`). So the two sides of a comparison
stay in one scope, and the names bound by that scope may be repeated in whatever way.
-/

namespace Stlc

/-- An index is found by one name only. -/
theorem Stack.eq_of_findIdx? {scope : Stack String} {x y : String} {i : Nat}
    (hx : scope.findIdx? (· == x) = some i) (hy : scope.findIdx? (· == y) = some i) : x = y := by
  obtain ⟨_, hxi, _⟩ := List.findIdx?_eq_some_iff_getElem.mp hx
  obtain ⟨_, hyi, _⟩ := List.findIdx?_eq_some_iff_getElem.mp hy
  exact (eq_of_beq hxi).symm.trans (eq_of_beq hyi)

namespace Expr

/-! ## Renaming -/

/-- Gives the name `z` to every occurrence of `x` that is not under an abstraction of that name. -/
def rename (e : Expr) (x z : String) : Expr :=
  match e with
  | var y s => var (if y = x then z else y) s
  | lam y τ e s => if y = x then lam y τ e s else lam y τ (e.rename x z) s
  | app e f s => app (e.rename x z) (f.rename x z) s

/-- Two expressions are equal up to the names of their binders, wherever they were read. Binders may
have the same name in both, or different ones: what counts is that the bodies are equal once some
name that occurs in neither of them is put for both. -/
inductive AlphaEq : Expr → Expr → Prop where
  | var {x s s'} : AlphaEq (var x s) (var x s')
  | lam {x y z σ τ e f s s'} : σ.sameAs τ → z ∉ e.names → z ∉ f.names →
      AlphaEq (e.rename x z) (f.rename y z) → AlphaEq (lam x σ e s) (lam y τ f s')
  | app {e e' f f' s s'} : AlphaEq e e' → AlphaEq f f' → AlphaEq (app e f s) (app e' f' s')

theorem HasFree.mem_names {e : Expr} {x : String} (h : e.HasFree x) : x ∈ e.names := by
  induction e with
  | var y s =>
      obtain rfl : y = x := h
      exact List.mem_singleton_self y
  | lam y τ e s ih => exact List.mem_cons_of_mem y (ih h.2)
  | app e f s ihe ihf =>
      rcases h with h | h
      · exact List.mem_append_left _ (ihe h)
      · exact List.mem_append_right _ (ihf h)

/-- Resolution asks a scope for the free names only. -/
theorem resolveIn_congr {e : Expr} {scope scope' : Stack String} {t : Term}
    (h : e.resolveIn scope = .ok t)
    (hfind : ∀ x, e.HasFree x → scope'.findIdx? (· == x) = scope.findIdx? (· == x)) :
    e.resolveIn scope' = .ok t := by
  rw [← t.substAll_var]
  apply resolveIn_substAll h
  intro x hx i hi
  exact ⟨i, (hfind x hx).trans hi, rfl⟩

/-- A renamed expression resolves to the same term where the names are found under their new names
as they were found before. -/
theorem resolveIn_rename {e : Expr} {scope scope' : Stack String} {t : Term} {x z : String}
    (h : e.resolveIn scope = .ok t) (hz : z ∉ e.names)
    (hfind : ∀ y, e.HasFree y →
      scope'.findIdx? (· == if y = x then z else y) = scope.findIdx? (· == y)) :
    (e.rename x z).resolveIn scope' = .ok t := by
  induction e generalizing scope scope' t with
  | var y s =>
      obtain ⟨i, hi, rfl⟩ := resolveIn_var_eq_ok_iff.mp h
      exact resolveIn_var_eq_ok_iff.mpr ⟨i, (hfind y rfl).trans hi, rfl⟩
  | lam y τ e s ih =>
      rw [rename]
      by_cases hyx : y = x
      · -- The abstraction hides `x`, so that no free name of it is renamed.
        rw [if_pos hyx]
        apply resolveIn_congr h
        intro w hw
        have hwx : w ≠ x := fun hwx => hw.1 (hyx.trans hwx.symm)
        have hfound := hfind w hw
        rwa [if_neg hwx] at hfound
      · rw [if_neg hyx]
        obtain ⟨b, hb, rfl⟩ := bind_pure_eq_ok_iff.mp h
        obtain ⟨hzy, hze⟩ := not_or.mp (List.mem_cons.not.mp hz)
        refine bind_pure_eq_ok_iff.mpr ⟨b, ih hb hze ?_, rfl⟩
        intro w hw
        by_cases hyw : y = w
        · subst hyw
          rw [if_neg hyx, Stack.findIdx?_push_self, Stack.findIdx?_push_self]
        · have hyw' : y ≠ if w = x then z else w := by
            split
            · exact Ne.symm hzy
            · exact hyw
          rw [Stack.findIdx?_push_of_ne hyw', Stack.findIdx?_push_of_ne hyw, hfind w ⟨hyw, hw⟩]
  | app e f s ihe ihf =>
      obtain ⟨t, u, ht, hu, rfl⟩ := bind_bind_pure_eq_ok_iff.mp h
      obtain ⟨hze, hzf⟩ := not_or.mp (List.mem_append.not.mp hz)
      have ht' := ihe ht hze fun y hy => hfind y (.inl hy)
      have hu' := ihf hu hzf fun y hy => hfind y (.inr hy)
      exact bind_bind_pure_eq_ok_iff.mpr ⟨t, u, ht', hu', rfl⟩

/-- A binder may be renamed along with the occurrences that it binds. -/
theorem resolveIn_push_rename {e : Expr} {scope : Stack String} {t : Term} {x z : String}
    (h : e.resolveIn (scope.push x) = .ok t) (hz : z ∉ e.names) :
    (e.rename x z).resolveIn (scope.push z) = .ok t := by
  apply resolveIn_rename h hz
  intro y hy
  by_cases hyx : y = x
  · subst hyx
    rw [if_pos rfl, Stack.findIdx?_push_self, Stack.findIdx?_push_self]
  · have hzy : z ≠ y := by
      rintro rfl
      exact hz hy.mem_names
    rw [if_neg hyx, Stack.findIdx?_push_of_ne hzy, Stack.findIdx?_push_of_ne (Ne.symm hyx)]

/-! ## Skeletons -/

theorem AlphaEq.skeleton_eq {e f : Expr} (h : e.AlphaEq f) {scope : Stack String} {t u : Term}
    (ht : e.resolveIn scope = .ok t) (hu : f.resolveIn scope = .ok u) :
    t.skeleton = u.skeleton := by
  induction h generalizing scope t u with
  | var =>
      obtain ⟨i, hi, rfl⟩ := resolveIn_var_eq_ok_iff.mp ht
      obtain ⟨j, hj, rfl⟩ := resolveIn_var_eq_ok_iff.mp hu
      rw [hi] at hj
      cases hj
      rfl
  | lam hτ hze hzf _ ih =>
      obtain ⟨b, hb, rfl⟩ := bind_pure_eq_ok_iff.mp ht
      obtain ⟨c, hc, rfl⟩ := bind_pure_eq_ok_iff.mp hu
      have hbody := ih (resolveIn_push_rename hb hze) (resolveIn_push_rename hc hzf)
      rw [Term.skeleton, Term.skeleton, (Ty.sameAs_iff _ _).mp hτ, hbody]
  | app _ _ ihe ihf =>
      obtain ⟨t₁, t₂, ht₁, ht₂, rfl⟩ := bind_bind_pure_eq_ok_iff.mp ht
      obtain ⟨u₁, u₂, hu₁, hu₂, rfl⟩ := bind_bind_pure_eq_ok_iff.mp hu
      rw [Term.skeleton, Term.skeleton, ihe ht₁ hu₁, ihf ht₂ hu₂]

/-- There is always a name that neither body mentions, so renaming never gets stuck. The induction
is on the term, since it is shared by an expression and what the expression is renamed to. -/
theorem AlphaEq.of_skeleton_eq {e f : Expr} {scope : Stack String} {t u : Term}
    (ht : e.resolveIn scope = .ok t) (hu : f.resolveIn scope = .ok u)
    (h : t.skeleton = u.skeleton) : e.AlphaEq f := by
  induction t generalizing e f scope u with
  | var i s =>
      obtain ⟨s', rfl⟩ := Term.skeleton_eq_var h.symm
      obtain ⟨x, rfl, hx⟩ := exists_of_resolveIn_eq_var ht
      obtain ⟨y, rfl, hy⟩ := exists_of_resolveIn_eq_var hu
      rw [Stack.eq_of_findIdx? hx hy]
      exact .var
  | lam x τ b s ih =>
      obtain ⟨y, σ, c, s', rfl, hσ, hc⟩ := Term.skeleton_eq_lam h.symm
      obtain ⟨e, rfl, he⟩ := exists_of_resolveIn_eq_lam ht
      obtain ⟨f, rfl, hf⟩ := exists_of_resolveIn_eq_lam hu
      have hfresh := freshName_not_mem (e.names ++ f.names) x
      generalize freshName (e.names ++ f.names) x = z at hfresh
      obtain ⟨hze, hzf⟩ := not_or.mp (List.mem_append.not.mp hfresh)
      refine .lam ((Ty.sameAs_iff _ _).mpr hσ.symm) hze hzf ?_
      exact ih (resolveIn_push_rename he hze) (resolveIn_push_rename hf hzf) hc.symm
  | app t₁ t₂ s ih₁ ih₂ =>
      obtain ⟨u₁, u₂, s', rfl, h₁, h₂⟩ := Term.skeleton_eq_app h.symm
      obtain ⟨e₁, e₂, rfl, he₁, he₂⟩ := exists_of_resolveIn_eq_app ht
      obtain ⟨f₁, f₂, rfl, hf₁, hf₂⟩ := exists_of_resolveIn_eq_app hu
      exact .app (ih₁ he₁ hf₁ h₁.symm) (ih₂ he₂ hf₂ h₂.symm)

/-! ## Binder names kept -/

/-- Equal terms come from equal expressions: binders keep their names, and an index gives away the
name that it was found by. -/
theorem eraseSpans_eq_of_resolveIn {e f : Expr} {scope : Stack String} {t u : Term}
    (ht : e.resolveIn scope = .ok t) (hu : f.resolveIn scope = .ok u)
    (h : t.eraseSpans = u.eraseSpans) : e.eraseSpans = f.eraseSpans := by
  induction e generalizing f scope t u with
  | var x s =>
      obtain ⟨i, hi, rfl⟩ := resolveIn_var_eq_ok_iff.mp ht
      cases u with
      | var j s' =>
          cases h
          obtain ⟨y, rfl, hj⟩ := exists_of_resolveIn_eq_var hu
          rw [Stack.eq_of_findIdx? hi hj]
          rfl
      | _ => cases h
  | lam x τ e s ih =>
      obtain ⟨b, hb, rfl⟩ := bind_pure_eq_ok_iff.mp ht
      cases u with
      | lam y σ c s' =>
          obtain ⟨f, rfl, hc⟩ := exists_of_resolveIn_eq_lam hu
          simp only [Term.eraseSpans, Term.lam.injEq, and_true] at h
          obtain ⟨rfl, hτ, hbody⟩ := h
          rw [eraseSpans, eraseSpans, hτ, ih hb hc hbody]
      | _ => cases h
  | app e₁ e₂ s ih₁ ih₂ =>
      obtain ⟨t₁, t₂, ht₁, ht₂, rfl⟩ := bind_bind_pure_eq_ok_iff.mp ht
      cases u with
      | app u₁ u₂ s' =>
          obtain ⟨f₁, f₂, rfl, hu₁, hu₂⟩ := exists_of_resolveIn_eq_app hu
          simp only [Term.eraseSpans, Term.app.injEq, and_true] at h
          rw [eraseSpans, eraseSpans, ih₁ ht₁ hu₁ h.1, ih₂ ht₂ hu₂ h.2]
      | _ => cases h

end Expr

/-- In one context, `resolve` maps two expressions to terms of one `skeleton` iff they are
`AlphaEq`, and to terms that are `sameAs` each other iff the expressions are. `AlphaEq`
renames, and knows of no indices; that both expressions stay in one scope when their binders are
renamed is `Expr.resolveIn_push_rename`. -/
theorem resolution_decides_alpha_equivalence (Γ : Context) (e f : Expr) (t u : Term)
    (ht : e.resolve Γ = .ok t) (hu : f.resolve Γ = .ok u) :
    (t.skeleton = u.skeleton ↔ e.AlphaEq f) ∧ (t.sameAs u ↔ e.sameAs f) := by
  constructor
  · constructor
    · exact Expr.AlphaEq.of_skeleton_eq ht hu
    · intro h
      exact h.skeleton_eq ht hu
  · rw [Term.sameAs_iff, Expr.sameAs_iff]
    constructor
    · exact Expr.eraseSpans_eq_of_resolveIn ht hu
    · intro h
      obtain ⟨t', ht', heq⟩ := Expr.resolveIn_of_eraseSpans_eq h hu
      rw [Expr.resolve, ht'] at ht
      cases ht
      exact heq

/-- The binders of the first expression have the names of two free variables and hide one another,
those of the second one are different from all of these; the third one is captured. -/
theorem resolution_decides_alpha_equivalence_shadowed :
    let bool : Ty := .bool .nowhere
    let var : String → Expr := (.var · .nowhere)
    let app : Expr → Expr → Expr := (.app · · .nowhere)
    let lam : String → Expr → Expr := (.lam · bool · .nowhere)
    let Γ : Context := .ofList [.untyped "x", .untyped "f", .untyped "x"]
    let e : Expr := lam "y" (app (app (var "f") (lam "x" (lam "y" (var "x")))) (var "y"))
    let f : Expr := lam "z" (app (app (var "f") (lam "y" (lam "x" (var "y")))) (var "z"))
    let g : Expr := lam "f" (app (app (var "f") (lam "x" (lam "y" (var "x")))) (var "f"))
    e.AlphaEq f ∧ ¬ e.AlphaEq g ∧
      ∃ t u, e.resolve Γ = .ok t ∧ f.resolve Γ = .ok u ∧ ¬ t.sameAs u := by
  intro bool var app lam Γ e f g
  have hef := resolution_decides_alpha_equivalence Γ e f _ _ rfl rfl
  have heg := resolution_decides_alpha_equivalence Γ e g _ _ rfl rfl
  refine ⟨hef.1.mp rfl, ?_, _, _, rfl, rfl, ?_⟩
  · rw [← heg.1]
    decide
  · rw [hef.2]
    decide

end Stlc
