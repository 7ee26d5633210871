import Stlc.Proofs.Outline
import Stlc.Proofs.Skeleton

/-!
# What makes no difference

Two runs that begin with the same thing, up to what a stage does not look at, go on alike. For
reduction that is everything but the outline of a term; for typing it is the names and the spans, of
the term and of the context (`Term.typeOf_skeleton`); for writing and resolving it is the spans.

Typing tells more of a failure than it looks at: the report has a name and spans in it. Without
these (`TypingError.skeleton`) two failures are the same.

The main statement is `indifference`.
-/

namespace Stlc

/-! ## Contexts and failures up to names and spans -/

def Binding.skeleton : Binding → Binding
  | untyped _ => untyped ""
  | typed _ τ => typed "" τ.eraseSpans

def Context.skeleton (Γ : Context) : Context := Γ.map Binding.skeleton

/-- The failure with its name and its spans forgotten. -/
def TypingError.skeleton : TypingError → TypingError
  | unboundIndex i depth _ => unboundIndex i depth .nowhere
  | untypedBinding _ i _ => untypedBinding "" i .nowhere
  | notAFunction found _ => notAFunction found.eraseSpans .nowhere
  | mismatch expected found _ _ => mismatch expected.eraseSpans found.eraseSpans .nowhere .nowhere

/-! ## Typing -/

theorem ApplicationRule.result?_eraseSpans (rule : ApplicationRule) (input output found : Ty) :
    rule.result? input.eraseSpans output.eraseSpans found.eraseSpans =
      (rule.result? input output found).map Ty.eraseSpans := by
  cases rule with
  | structural =>
      simp only [result?, Ty.sameAs_iff, Ty.eraseSpans_eraseSpans]
      split <;> rfl
  | formerOnly =>
      simp only [result?, Ty.former_eraseSpans]
      split <;> rfl

@[simp] theorem Term.span_skeleton (t : Term) : t.skeleton.span = .nowhere := by
  cases t <;> rfl

theorem Context.typeOf_skeleton (Γ : Context) (i : Nat) (s : Span) :
    Γ.skeleton.typeOf i .nowhere =
      ((Γ.typeOf i s).mapError TypingError.skeleton).map Ty.eraseSpans := by
  unfold Context.typeOf Context.skeleton
  rw [Stack.get?_map, Stack.size_map]
  rcases Γ.get? i with _ | _ | _ <;> rfl

/-- Typing goes along with forgetting names and spans, whether it succeeds or fails. -/
theorem Term.typeOf_skeleton (rule : ApplicationRule) (Γ : Context) (t : Term) :
    t.skeleton.typeOf rule Γ.skeleton =
      ((t.typeOf rule Γ).mapError TypingError.skeleton).map Ty.eraseSpans := by
  induction t generalizing Γ with
  | var i s => exact Γ.typeOf_skeleton i s
  | lam x τ t s ih =>
      have hpush : Γ.skeleton.push (.typed "" τ.eraseSpans) =
        Context.skeleton (Γ.push (.typed x τ)) := rfl
      rw [skeleton, typeOf, typeOf, hpush, ih]
      exact map_mapError_bind_of_forall fun _ => rfl
  | app t u s iht ihu =>
      rw [skeleton, typeOf, typeOf, iht, ihu]
      apply map_mapError_bind_of_forall
      intro τ₁
      apply map_mapError_bind_of_forall
      intro τ₂
      rw [span_skeleton, span_skeleton]
      cases τ₁ with
      | bool s' => rfl
      | arrow input output s' =>
          simp only [Ty.eraseSpans, ApplicationRule.result?_eraseSpans]
          cases rule.result? input output τ₂ <;> rfl

/-! ## Two runs -/

/-- What names, annotations and spans matter for. Terms of one `outline` run in lock step, through
`advances`, `evaluate`, `trace` and `Reduction.take`, errors included. `typeOf` sees the
`skeleton` of term and context, for both rules. `display` and `resolve` do not see spans. Each
part is the lemma that the function commutes with the map that forgets, used from both sides. -/
theorem indifference :
    (∀ t u : Term, t.outline = u.outline →
      (∀ n, (t.advances n).map (Prod.map id Term.outline) =
        (u.advances n).map (Prod.map id Term.outline)) ∧
      (∀ fuel, (t.evaluate fuel).map (Except.map Term.outline) =
        (u.evaluate fuel).map (Except.map Term.outline)) ∧
      (∀ fuel, (t.trace fuel).map (Except.map (List.map Term.outline)) =
        (u.trace fuel).map (Except.map (List.map Term.outline))) ∧
      (∀ n, ((Reduction.ofTerm t).take n).map (Except.map Term.outline) =
        ((Reduction.ofTerm u).take n).map (Except.map Term.outline))) ∧
    (∀ (rule : ApplicationRule) (Γ Δ : Context) (t u : Term), Γ.skeleton = Δ.skeleton →
      t.skeleton = u.skeleton →
        ((t.typeOf rule Γ).mapError TypingError.skeleton).map Ty.eraseSpans =
          ((u.typeOf rule Δ).mapError TypingError.skeleton).map Ty.eraseSpans) ∧
    (∀ (Γ : Context) (t u : Term), t.eraseSpans = u.eraseSpans → t.display Γ = u.display Γ) ∧
    (∀ (Γ : Context) (e f : Expr), e.eraseSpans = f.eraseSpans →
      ((e.resolve Γ).mapError UnboundName.eraseSpan).map Term.eraseSpans =
        ((f.resolve Γ).mapError UnboundName.eraseSpan).map Term.eraseSpans) := by
  refine ⟨?reduction, ?typing, ?writing, ?resolution⟩
  case reduction =>
    intro t u h
    refine ⟨?_, ?_, ?_, ?_⟩
    · intro n
      rw [← Term.advances_outline, h, Term.advances_outline]
    · intro fuel
      rw [← Term.evaluate_outline, h, Term.evaluate_outline]
    · intro fuel
      rw [← Term.trace_outline, h, Term.trace_outline]
    · intro n
      rw [← Term.take_outline, h, Term.take_outline]
  case typing =>
    intro rule Γ Δ t u hctx h
    rw [← Term.typeOf_skeleton, h, hctx, Term.typeOf_skeleton]
  case writing =>
    intro Γ t u h
    rw [Term.display, ← Term.write_eraseSpans, h, Term.write_eraseSpans, Term.display]
  case resolution =>
    intro Γ e f h
    rw [Expr.resolve, ← Expr.resolveIn_eraseSpans, h, Expr.resolveIn_eraseSpans, Expr.resolve]

/-- A redex whose argument mentions the context, with other names, types and spans; a failure
about a binding with another name; a shadowed variable and an unbound name at other places. -/
theorem indifference_renamed :
    let bool (s : Span) : Ty := .bool s
    let redex (x : String) (τ : Ty) (s : Span) : Term := .app (.lam x τ (.var 0 s) s)
      (.lam x τ (.app (.var 1 s) (.var 0 s) s) s) s
    let Γ (x y : String) (s : Span) : Context := .ofList [.typed x (bool s), .untyped y]
    let t : Term := redex "x" (bool ⟨3, 7⟩) ⟨0, 1⟩
    let u : Term := redex "y" (.arrow (bool ⟨4, 8⟩) (bool ⟨9, 13⟩) ⟨4, 13⟩) ⟨1, 2⟩
    let v : Term := .lam "" (.bool .nowhere) (.app (.var 1 .nowhere) (.var 0 .nowhere) .nowhere)
      .nowhere
    (t.outline = u.outline ∧
      (t.advances 2).map (Prod.map id Term.outline) = .ok ([true, false], v) ∧
      (u.advances 2).map (Prod.map id Term.outline) = .ok ([true, false], v)) ∧
    ((Γ "x" "y" ⟨2, 6⟩).skeleton = (Γ "y" "x" ⟨7, 11⟩).skeleton ∧ t.skeleton ≠ u.skeleton ∧
      (Term.var 0 ⟨0, 1⟩).skeleton = (Term.var 0 ⟨4, 5⟩).skeleton ∧
      (Term.var 0 ⟨0, 1⟩).typeOf .structural (Γ "x" "y" ⟨2, 6⟩) =
        .error (.untypedBinding "y" 0 ⟨0, 1⟩) ∧
      (((Term.var 0 ⟨4, 5⟩).typeOf .structural (Γ "y" "x" ⟨7, 11⟩)).mapError
        TypingError.skeleton).map Ty.eraseSpans = .error (.untypedBinding "" 0 .nowhere)) ∧
    ((Term.var 1 ⟨0, 1⟩).display (Γ "x" "x" .nowhere) = "#1" ∧
      (Term.var 1 ⟨2, 3⟩).display (Γ "x" "x" .nowhere) = "#1") ∧
    ((Expr.var "z" ⟨0, 1⟩).resolve (Γ "x" "y" .nowhere) = .error ⟨"z", ⟨0, 1⟩⟩ ∧
      (((Expr.var "z" ⟨4, 5⟩).resolve (Γ "x" "y" .nowhere)).mapError UnboundName.eraseSpan).map
        Term.eraseSpans = .error ⟨"z", .nowhere⟩) := by
  intro bool redex Γ t u v
  obtain ⟨hreduction, htyping, hwriting, hresolution⟩ := indifference
  have ht : (t.advances 2).map (Prod.map id Term.outline) = .ok ([true, false], v) := rfl
  have hvar : (Term.var 0 ⟨0, 1⟩).typeOf .structural (Γ "x" "y" ⟨2, 6⟩) =
      .error (.untypedBinding "y" 0 ⟨0, 1⟩) := rfl
  have hshadowed : (Term.var 1 ⟨0, 1⟩).display (Γ "x" "x" .nowhere) = "#1" := by cbv
  have hunbound : (Expr.var "z" ⟨0, 1⟩).resolve (Γ "x" "y" .nowhere) =
      .error ⟨"z", ⟨0, 1⟩⟩ := rfl
  refine ⟨⟨rfl, ht, ?_⟩, ⟨rfl, by decide, rfl, hvar, ?_⟩, ⟨hshadowed, ?_⟩, hunbound, ?_⟩
  · exact ((hreduction t u rfl).1 2).symm.trans ht
  · exact (htyping .structural (Γ "x" "y" ⟨2, 6⟩) _ (.var 0 ⟨0, 1⟩) _ rfl rfl).symm
  · exact (hwriting _ (.var 1 ⟨0, 1⟩) _ rfl).symm.trans hshadowed
  · exact (hresolution (Γ "x" "y" .nowhere) (.var "z" ⟨0, 1⟩) _ rfl).symm

end Stlc
