import Stlc.Proofs.Program

/-!
# Type soundness

What a typed term is reduced to has the type of the term, after any number of steps, and without a
context reduction never gets stuck.
-/

namespace Stlc

/-- **Soundness of `structural`.** If `typeOf` finds `τ` for `t`, it finds `τ` up to `Ty.sameAs` for
every term of the run of `t`, for the value of `evaluate`, and for what `Program.evaluate` prints
beside its type. In the empty context no such term is stuck: `step` takes it on unless `isValue`.
Each step goes through `Term.Run.hasType`; `indexLimit` is needed for `Term.step_isOk` only. -/
theorem type_soundness :
    (∀ (Γ : Context) (t : Term) (τ : Ty), t.typeOf .structural Γ = .ok τ →
      (∀ n u, Term.Run n t u → ∃ τ', u.typeOf .structural Γ = .ok τ' ∧ τ'.sameAs τ) ∧
      (∀ fuel v, t.evaluate fuel = some (.ok v) →
        ∃ τ', v.typeOf .structural Γ = .ok τ' ∧ τ'.sameAs τ) ∧
      (Γ = .empty → ∀ n u, Term.Run n t u → u.lams < indexLimit →
        u.isValue ∨ ∃ w, u.step = .ok (some w))) ∧
    (∀ (p : Program) (fuel : Nat) (v : Term) (τ? : Option Ty),
      p.evaluate {} fuel = some (.ok (v, τ?)) →
        ∃ τ τ', τ? = some τ ∧ v.typeOf .structural p.context = .ok τ' ∧ τ'.sameAs τ) := by
  have hrun : ∀ {Γ : Context} {t u : Term} {τ : Ty} {n : Nat}, t.typeOf .structural Γ = .ok τ →
      Term.Run n t u → HasType Γ u τ.eraseSpans := fun h hr => hr.hasType (.of_typeOf h)
  refine ⟨fun Γ t τ h => ⟨fun n u hr => (hrun h hr).typeOf_sameAs, ?_, ?_⟩, ?_⟩
  · intro fuel v hv
    obtain ⟨n, _, hr, _⟩ := Term.evaluate_eq_ok_iff.mp hv
    exact (hrun h hr).typeOf_sameAs
  · rintro rfl n u hr hlams
    have hu := hrun h hr
    have hn : (Stack.empty : Context).size + u.lams < indexLimit := by simpa using hlams
    obtain ⟨_ | w, hw⟩ := Term.step_isOk hu.scoped hn
    · exact .inl ((Term.step_eq_none_iff.mp hw).resolve_right hu.not_stuck)
    · exact .inr ⟨w, hw⟩
  · intro p fuel v τ? hp
    obtain ⟨t, ht, hv⟩ := Program.evaluate_eq_ok_iff.mp hp
    obtain ⟨τ, _, hτ, rfl⟩ := Program.ready_checked_eq_ok_iff.mp ht
    obtain ⟨n, _, hr, _⟩ := Term.evaluate_eq_ok_iff.mp hv
    obtain ⟨τ', hτ', hsame⟩ := (hrun hτ hr).typeOf_sameAs
    exact ⟨τ, τ', rfl, hτ', hsame⟩

/-- A closed redex, and a program whose argument mentions the context and is moved under a
binder. -/
theorem type_soundness_moved_argument :
    let bool : Ty := .bool .nowhere
    let t : Term := .app (.lam "x" (.arrow bool bool .nowhere) (.var 0 .nowhere) .nowhere)
      (.lam "y" bool (.var 0 .nowhere) .nowhere) .nowhere
    let Γ : Context := .ofList [.typed "f" (.arrow bool bool .nowhere)]
    let v : Term := .lam "x" (.bool ⟨19, 23⟩) (.app (.lam "y" (.bool ⟨34, 38⟩)
      (.app (.var 2 ⟨40, 41⟩) (.var 0 ⟨42, 43⟩) ⟨40, 43⟩) ⟨31, 43⟩) (.var 0 ⟨27, 28⟩) ⟨25, 28⟩)
      ⟨16, 28⟩
    t.typeOf .structural .empty = .ok (.arrow bool bool .nowhere) ∧
      (∀ n u, Term.Run n t u → u.lams < indexLimit → u.isValue ∨ ∃ w, u.step = .ok (some w)) ∧
      (∃ τ, Program.evaluate ⟨"(\\g:Bool->Bool. \\x:Bool. g x) (\\y:Bool. f y)", Γ⟩ {} 2 =
        some (.ok (v, some τ))) ∧
      ∃ τ', v.typeOf .structural Γ = .ok τ' := by
  intro bool t Γ v
  have ht : t.typeOf .structural .empty = .ok (.arrow bool bool .nowhere) := rfl
  have hv : Program.evaluate ⟨"(\\g:Bool->Bool. \\x:Bool. g x) (\\y:Bool. f y)", Γ⟩ {} 2 =
      some (.ok (v, some (.arrow (.bool ⟨19, 23⟩) (.bool ⟨10, 14⟩) ⟨16, 28⟩))) := by cbv
  obtain ⟨_, τ', _, hτ', _⟩ := type_soundness.2 _ _ _ _ hv
  exact ⟨ht, (type_soundness.1 _ _ _ ht).2.2 rfl, ⟨_, hv⟩, τ', hτ'⟩

end Stlc
