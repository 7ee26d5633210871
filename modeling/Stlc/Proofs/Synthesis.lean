import Stlc.Proofs.First
import Stlc.Proofs.NamedTyping

/-!
# Computing types

`typeOf` computes the type of a term by one of two rules for applications. `HasTypeBy` is the typing
relation that it computes, by either rule, on types that keep their spans.

Of a term without a type `typeOf` reports one thing. The parts of the term are gone through from the
left and from the inside (`Term.sites`), and the report is on the first of them that has no type
where it stands: its own parts have, so that what is wrong there is one of four things
(`Site.Defect`). The main statement is `typing_reports_first_defect`.

## Key lemmas

* `HasTypeBy.typeOf_iff` — the relation and the function.
* `Term.isTypable_of_mem_sites` — a term that has a type has typable parts only.
* `Term.exists_defect_of_typeOf` — a failure is about the first part without a type.
* `Site.Defect.unique` — of one part there is one thing to report.
-/

namespace Stlc

/-! ## The rules -/

/-- What a function from `input` to `output` answers for an argument of type `found`. -/
inductive ApplicationRule.Fits : ApplicationRule → Ty → Ty → Ty → Ty → Prop where
  /-- The argument has the input type of the function, wherever the two were read. -/
  | structural {input output found} : input.eraseSpans = found.eraseSpans →
      Fits .structural input output found output
  /-- The argument's type has the outermost former of the input type, and is the answer. -/
  | formerOnly {input output found} : input.former = found.former →
      Fits .formerOnly input output found found

/-- The typing relation of a rule for applications. A type that was declared keeps its spans, and
that of an abstraction has the span of the abstraction. -/
inductive HasTypeBy (rule : ApplicationRule) : Context → Term → Ty → Prop where
  | var {Γ i s x τ} : Γ.get? i = some (.typed x τ) → HasTypeBy rule Γ (.var i s) τ
  | lam {Γ x σ t s τ} : HasTypeBy rule (Γ.push (.typed x σ)) t τ →
      HasTypeBy rule Γ (.lam x σ t s) (.arrow σ τ s)
  | app {Γ t u s input output s' found τ} : HasTypeBy rule Γ t (.arrow input output s') →
      HasTypeBy rule Γ u found → rule.Fits input output found τ → HasTypeBy rule Γ (.app t u s) τ

theorem ApplicationRule.fits_iff {rule : ApplicationRule} {input output found τ : Ty} :
    rule.Fits input output found τ ↔ rule.result? input output found = some τ := by
  cases rule with
  | structural =>
      rw [result?, Option.ite_none_right_eq_some, Ty.sameAs_iff, Option.some.injEq]
      constructor
      · rintro ⟨h⟩
        exact ⟨h, rfl⟩
      · rintro ⟨h, rfl⟩
        exact .structural h
  | formerOnly =>
      rw [result?, Option.ite_none_right_eq_some, Option.some.injEq]
      constructor
      · rintro (_ | h)
        exact ⟨h, rfl⟩
      · rintro ⟨h, rfl⟩
        exact .formerOnly h

namespace HasTypeBy

variable {rule : ApplicationRule} {Γ : Context} {t : Term} {τ : Ty}

theorem typeOf (h : HasTypeBy rule Γ t τ) : t.typeOf rule Γ = .ok τ := by
  induction h with
  | var h => rw [Term.typeOf, Context.typeOf, h]
  | lam _ ih => exact bind_pure_eq_ok_iff.mpr ⟨_, ih, rfl⟩
  | app _ _ hfits iht ihu =>
      exact Term.typeOf_app_eq_ok_iff.mpr
        ⟨_, _, _, _, iht, ihu, ApplicationRule.fits_iff.mp hfits⟩

theorem of_typeOf (h : t.typeOf rule Γ = .ok τ) : HasTypeBy rule Γ t τ := by
  induction t generalizing Γ τ with
  | var i s =>
      obtain ⟨b, hb, hτ⟩ := Option.bind_eq_some_iff.mp (Context.typeOf_eq_ok_iff.mp h)
      cases b with
      | untyped x => cases hτ
      | typed x σ =>
          cases hτ
          exact .var hb
  | lam x σ t s ih =>
      obtain ⟨τ', hτ', rfl⟩ := bind_pure_eq_ok_iff.mp h
      exact .lam (ih hτ')
  | app t u s iht ihu =>
      obtain ⟨input, output, s', found, ht, hu, hresult⟩ := Term.typeOf_app_eq_ok_iff.mp h
      exact .app (iht ht) (ihu hu) (ApplicationRule.fits_iff.mpr hresult)

theorem typeOf_iff : t.typeOf rule Γ = .ok τ ↔ HasTypeBy rule Γ t τ := ⟨of_typeOf, typeOf⟩

theorem unique {τ' : Ty} (h : HasTypeBy rule Γ t τ) (h' : HasTypeBy rule Γ t τ') : τ = τ' := by
  have hτ := h.typeOf
  rw [h'.typeOf] at hτ
  cases hτ
  rfl

end HasTypeBy

/-! ## Contexts under abstractions -/

namespace Context

@[simp] theorem size_under (Γ : Context) (binders : List (String × Ty)) :
    (Γ.under binders).size = Γ.size + binders.length := by
  induction binders with
  | nil => rfl
  | cons b binders ih => rw [under, Stack.size_push, ih, List.length_cons, Nat.add_assoc]

@[simp] theorem get?_under (Γ : Context) (binders : List (String × Ty)) (k : Nat) :
    (Γ.under binders).get? (binders.length + k) = Γ.get? k := by
  induction binders with
  | nil => rw [List.length_nil, Nat.zero_add, under]
  | cons b binders ih =>
      rw [under, List.length_cons, Nat.add_right_comm, Stack.get?_push_succ, ih]

/-- An abstraction declares a type, so what is declared without one is of the context. -/
theorem exists_of_get?_under {Γ : Context} {binders : List (String × Ty)} {i : Nat} {x : String}
    (h : (Γ.under binders).get? i = some (.untyped x)) :
    ∃ k, i = binders.length + k ∧ Γ.get? k = some (.untyped x) := by
  induction binders generalizing i with
  | nil => exact ⟨i, by simp, h⟩
  | cons b binders ih =>
      cases i with
      | zero => cases h
      | succ i =>
          obtain ⟨k, rfl, hk⟩ := ih h
          exact ⟨k, by rw [List.length_cons, Nat.add_right_comm], hk⟩

end Context

/-! ## Defects -/

/-- A part of a term, with the abstractions around it, innermost first. -/
structure Site where
  binders : List (String × Ty)
  term : Term

/-- The parts of a term that stands under some abstractions: from the left, and every part after its
own parts. -/
def Term.sites (binders : List (String × Ty)) : Term → List Site
  | var i s => [⟨binders, var i s⟩]
  | lam x τ t s => t.sites ((x, τ) :: binders) ++ [⟨binders, lam x τ t s⟩]
  | app t u s => t.sites binders ++ (u.sites binders ++ [⟨binders, app t u s⟩])

namespace Site

variable {rule : ApplicationRule} {Γ : Context}

def IsTypable (rule : ApplicationRule) (Γ : Context) (n : Site) : Prop :=
  ∃ τ, HasTypeBy rule (Γ.under n.binders) n.term τ

/-- Why a part has no type although its own parts have. -/
inductive Defect (rule : ApplicationRule) (Γ : Context) : Site → TypingError → Prop where
  /-- A variable that counts past the abstractions around it, and past the context as well. -/
  | unboundIndex {binders i s} : Γ.size + binders.length ≤ i →
      Defect rule Γ ⟨binders, .var i s⟩ (.unboundIndex i (Γ.size + binders.length) s)
  /-- A variable of the context that is declared without a type. -/
  | untypedBinding {binders k x s} : Γ.get? k = some (.untyped x) →
      Defect rule Γ ⟨binders, .var (binders.length + k) s⟩
        (.untypedBinding x (binders.length + k) s)
  /-- An application whose function has a type that is not an arrow. -/
  | notAFunction {binders t u s s' found} : HasTypeBy rule (Γ.under binders) t (.bool s') →
      HasTypeBy rule (Γ.under binders) u found →
      Defect rule Γ ⟨binders, .app t u s⟩ (.notAFunction (.bool s') t.span)
  /-- An application whose function does not take its argument. -/
  | mismatch {binders t u s input output s' found} :
      HasTypeBy rule (Γ.under binders) t (.arrow input output s') →
      HasTypeBy rule (Γ.under binders) u found → (∀ τ, ¬ rule.Fits input output found τ) →
      Defect rule Γ ⟨binders, .app t u s⟩ (.mismatch input found u.span t.span)

theorem Defect.not_isTypable {n : Site} {e : TypingError} (h : Defect rule Γ n e) :
    ¬ n.IsTypable rule Γ := by
  rintro ⟨τ, hτ⟩
  cases h with
  | @unboundIndex binders i s hi =>
      cases hτ with
      | var hget =>
          have hlt := ((Γ.under binders).get?_isSome_iff i).mp (by rw [hget]; rfl)
          rw [Context.size_under] at hlt
          omega
  | untypedBinding hk =>
      cases hτ with
      | var hget =>
          rw [Context.get?_under, hk] at hget
          cases hget
  | notAFunction ht _ =>
      cases hτ with
      | app ht' _ _ => cases ht.unique ht'
  | mismatch ht hu hfits =>
      cases hτ with
      | app ht' hu' hfits' =>
          cases ht.unique ht'
          cases hu.unique hu'
          exact hfits _ hfits'

theorem Defect.isFirstWithout {n : Site} {e : TypingError} (h : Defect rule Γ n e) {ns : List Site}
    (hns : ∀ m ∈ ns, m.IsTypable rule Γ) : IsFirstWithout (IsTypable rule Γ) (ns ++ [n]) n :=
  (IsFirstWithout.singleton h.not_isTypable).append_right hns

/-- There is one thing to report about a part. -/
theorem Defect.unique {n : Site} {e e' : TypingError} (h : Defect rule Γ n e)
    (h' : Defect rule Γ n e') : e = e' := by
  cases h with
  | @unboundIndex binders i s hi =>
      generalize hn : (⟨binders, .var i s⟩ : Site) = n at h'
      cases h' with
      | unboundIndex => cases hn; rfl
      | untypedBinding hk =>
          cases hn
          have hlt := (Γ.get?_isSome_iff _).mp (by rw [hk]; rfl)
          omega
      | notAFunction => cases hn
      | mismatch => cases hn
  | @untypedBinding binders k x s hk =>
      generalize hn : (⟨binders, .var (binders.length + k) s⟩ : Site) = n at h'
      cases h' with
      | unboundIndex hi =>
          cases hn
          have hlt := (Γ.get?_isSome_iff _).mp (by rw [hk]; rfl)
          omega
      | @untypedBinding binders' k' x' s' hk' =>
          simp only [Site.mk.injEq, Term.var.injEq] at hn
          obtain ⟨rfl, hkk, rfl⟩ := hn
          obtain rfl : k = k' := by omega
          rw [hk] at hk'
          cases hk'
          rfl
      | notAFunction => cases hn
      | mismatch => cases hn
  | notAFunction ht hu =>
      cases h' with
      | notAFunction ht' hu' =>
          cases ht.unique ht'
          rfl
      | mismatch ht' hu' => cases ht.unique ht'
  | mismatch ht hu hfits =>
      cases h' with
      | notAFunction ht' hu' => cases ht.unique ht'
      | mismatch ht' hu' _ =>
          cases ht.unique ht'
          cases hu.unique hu'
          rfl

end Site

namespace Term

/-- If a term has a type, all its parts have. -/
theorem isTypable_of_mem_sites {rule : ApplicationRule} {Γ : Context} {t : Term} {τ : Ty}
    (binders : List (String × Ty)) (h : HasTypeBy rule (Γ.under binders) t τ) :
    ∀ n ∈ t.sites binders, n.IsTypable rule Γ := by
  induction t generalizing binders τ with
  | var i s =>
      rw [sites, List.forall_mem_singleton]
      exact ⟨τ, h⟩
  | lam x σ t s ih =>
      rw [sites, List.forall_mem_append, List.forall_mem_singleton]
      refine ⟨?_, τ, h⟩
      cases h with
      | lam ht => exact ih _ ht
  | app t u s iht ihu =>
      rw [sites, List.forall_mem_append, List.forall_mem_append, List.forall_mem_singleton]
      refine ⟨?_, ?_, τ, h⟩
      · cases h with
        | app ht hu _ => exact iht binders ht
      · cases h with
        | app ht hu _ => exact ihu binders hu

/-- Typing fails for the defect of the first part without a type. -/
theorem exists_defect_of_typeOf {rule : ApplicationRule} {Γ : Context} {t : Term}
    (binders : List (String × Ty)) {e : TypingError}
    (h : t.typeOf rule (Γ.under binders) = .error e) :
    ∃ n, IsFirstWithout (Site.IsTypable rule Γ) (t.sites binders) n ∧ n.Defect rule Γ e := by
  induction t generalizing binders with
  | var i s =>
      rw [typeOf, Context.typeOf] at h
      split at h
      · next hget =>
          cases h
          have hi : Γ.size + binders.length ≤ i := by
            by_contra hlt
            have hsome : ((Γ.under binders).get? i).isSome :=
              (Stack.get?_isSome_iff _ i).mpr (by rw [Context.size_under]; omega)
            rw [hget] at hsome
            cases hsome
          rw [Context.size_under]
          have hdefect : Site.Defect rule Γ ⟨binders, var i s⟩ _ := .unboundIndex hi
          exact ⟨_, .singleton hdefect.not_isTypable, hdefect⟩
      · next x hget =>
          cases h
          obtain ⟨k, rfl, hk⟩ := Context.exists_of_get?_under hget
          have hdefect : Site.Defect rule Γ ⟨binders, var (binders.length + k) s⟩ _ :=
            .untypedBinding hk
          exact ⟨_, .singleton hdefect.not_isTypable, hdefect⟩
      · cases h
  | lam x σ t s ih =>
      have hbody : t.typeOf rule (Γ.under ((x, σ) :: binders)) = .error e :=
        bind_pure_eq_error_iff.mp h
      obtain ⟨n, hn, hdefect⟩ := ih _ hbody
      exact ⟨n, hn.append_left _, hdefect⟩
  | app t u s iht ihu =>
      rcases typeOf_app_eq_error h with ht | ⟨τ₁, ht, hu | ⟨found, hu, h⟩⟩
      · obtain ⟨n, hn, hdefect⟩ := iht binders ht
        exact ⟨n, hn.append_left _, hdefect⟩
      · obtain ⟨n, hn, hdefect⟩ := ihu binders hu
        have hsites := isTypable_of_mem_sites binders (.of_typeOf ht)
        exact ⟨n, (hn.append_left _).append_right hsites, hdefect⟩
      · have ht := HasTypeBy.of_typeOf ht
        have hu := HasTypeBy.of_typeOf hu
        have hsites : ∀ n ∈ t.sites binders ++ u.sites binders, n.IsTypable rule Γ :=
          List.forall_mem_append.mpr
            ⟨isTypable_of_mem_sites binders ht, isTypable_of_mem_sites binders hu⟩
        rw [sites, ← List.append_assoc]
        rcases h with ⟨s', rfl, rfl⟩ | ⟨input, output, s', rfl, hresult, rfl⟩
        · have hdefect : Site.Defect rule Γ ⟨binders, app t u s⟩ _ := .notAFunction ht hu
          exact ⟨_, hdefect.isFirstWithout hsites, hdefect⟩
        · have hnone : ∀ τ, ¬ rule.Fits input output found τ := by
            intro τ hfits
            rw [ApplicationRule.fits_iff, hresult] at hfits
            cases hfits
          have hdefect : Site.Defect rule Γ ⟨binders, app t u s⟩ _ := .mismatch ht hu hnone
          exact ⟨_, hdefect.isFirstWithout hsites, hdefect⟩

end Term

/-- `typeOf` computes the relation `HasTypeBy` of either rule. Its error is the `Defect` of the
first site without a type, where `Term.sites` lists the sites in post-order: a part comes before
the node it is in, and a function before its argument. Determinism is needed for the converse
(`eq_error_iff_isFirstWithout`): one site has one defect. -/
theorem typing_reports_first_defect (rule : ApplicationRule) (Γ : Context) (t : Term) :
    (∀ τ, t.typeOf rule Γ = .ok τ ↔ HasTypeBy rule Γ t τ) ∧
    (∀ e, t.typeOf rule Γ = .error e ↔
      ∃ n, IsFirstWithout (Site.IsTypable rule Γ) (t.sites []) n ∧ n.Defect rule Γ e) := by
  refine ⟨fun τ => HasTypeBy.typeOf_iff, fun e => eq_error_iff_isFirstWithout ?_ ?_ ?_⟩
  · intro τ hτ
    exact Term.isTypable_of_mem_sites [] (.of_typeOf hτ)
  · intro e he
    exact Term.exists_defect_of_typeOf [] he
  · intro n e e' he he'
    exact he.unique he'

/-- The argument is looked at before it matters that the function is none. -/
example :
    let bool : Ty := .bool .nowhere
    let Γ : Context := .ofList [.typed "x" bool, .untyped "y"]
    let t : Term := .app (.var 1 ⟨0, 1⟩) (.var 0 ⟨2, 3⟩) ⟨0, 3⟩
    t.typeOf .structural Γ = .error (.untypedBinding "y" 0 ⟨2, 3⟩) := by
  rfl

end Stlc
