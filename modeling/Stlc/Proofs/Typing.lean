import Stlc.Proofs.Reduction
import Stlc.Typing

/-!
# The typing rules

`HasType Γ t τ` is the usual typing relation, as rules. Types that differ in their spans only are
one type here: the relation speaks of types whose spans have been forgotten. `hasType_iff` says
that `typeOf` decides it and computes the one type there is, with spans.

## Key lemmas

* `HasType.rename`, `HasType.substAll` — typing goes along with a renaming, and with a substitution,
  if that takes each variable to something of its type.
* `Term.Reduces.hasType` — a reduct has the type of the redex.
* `HasType.not_stuck` — nothing typed without a context is stuck.
-/

namespace Stlc

/-! ## Types up to spans -/

@[simp] theorem Ty.eraseSpans_eraseSpans (τ : Ty) : τ.eraseSpans.eraseSpans = τ.eraseSpans := by
  induction τ with
  | bool s => rfl
  | arrow a b s iha ihb => simp only [eraseSpans, iha, ihb]

@[simp] theorem Ty.former_eraseSpans (τ : Ty) : τ.eraseSpans.former = τ.former := by
  cases τ <;> rfl

theorem Ty.eraseSpans_eq_arrow {τ a b : Ty} (h : τ.eraseSpans = .arrow a b .nowhere) :
    ∃ a' b' s, τ = .arrow a' b' s ∧ a'.eraseSpans = a ∧ b'.eraseSpans = b := by
  cases τ with
  | bool s => cases h
  | arrow a' b' s =>
      simp only [eraseSpans, arrow.injEq] at h
      exact ⟨a', b', s, rfl, h.1, h.2.1⟩

namespace Context

def typeAt? (Γ : Context) (i : Nat) : Option Ty :=
  ((Γ.get? i).bind Binding.type?).map Ty.eraseSpans

theorem lt_size_of_typeAt? {Γ : Context} {i : Nat} {τ : Ty} (h : Γ.typeAt? i = some τ) :
    i < Γ.size := by
  rw [← Γ.get?_isSome_iff]
  cases hi : Γ.get? i with
  | none => simp [typeAt?, hi] at h
  | some b => rfl

theorem typeOf_eq_ok_iff {Γ : Context} {i : Nat} {s : Span} {τ : Ty} :
    Γ.typeOf i s = .ok τ ↔ (Γ.get? i).bind Binding.type? = some τ := by
  unfold Context.typeOf
  split
  · next h => simp [h]
  · next x h => simp [h, Binding.type?]
  · next x σ h => simp [h, Binding.type?]

end Context

/-! ## The type of an application -/

/-- All that typing an application can succeed with. -/
theorem Term.typeOf_app_eq_ok_iff {rule : ApplicationRule} {Γ : Context} {t u : Term} {s : Span}
    {τ : Ty} : (app t u s).typeOf rule Γ = .ok τ ↔ ∃ input output s' found,
      t.typeOf rule Γ = .ok (.arrow input output s') ∧ u.typeOf rule Γ = .ok found ∧
      rule.result? input output found = some τ := by
  rw [typeOf]
  constructor
  · intro h
    obtain ⟨τ₁, ht, h⟩ := bind_eq_ok_iff.mp h
    obtain ⟨found, hu, h⟩ := bind_eq_ok_iff.mp h
    cases τ₁ with
    | bool s' => cases h
    | arrow input output s' =>
        refine ⟨input, output, s', found, ht, hu, ?_⟩
        dsimp only at h
        split at h
        · next hresult =>
            cases h
            exact hresult
        · cases h
  · rintro ⟨input, output, s', found, ht, hu, hresult⟩
    refine bind_eq_ok_iff.mpr ⟨_, ht, bind_eq_ok_iff.mpr ⟨found, hu, ?_⟩⟩
    dsimp only
    rw [hresult]
    rfl

/-- All that typing an application can fail for. -/
theorem Term.typeOf_app_eq_error {rule : ApplicationRule} {Γ : Context} {t u : Term} {s : Span}
    {e : TypingError} (h : (app t u s).typeOf rule Γ = .error e) :
    t.typeOf rule Γ = .error e ∨ ∃ τ₁, t.typeOf rule Γ = .ok τ₁ ∧
      (u.typeOf rule Γ = .error e ∨ ∃ found, u.typeOf rule Γ = .ok found ∧
        ((∃ s', τ₁ = .bool s' ∧ e = .notAFunction τ₁ t.span) ∨
          ∃ input output s', τ₁ = .arrow input output s' ∧
            rule.result? input output found = none ∧ e = .mismatch input found u.span t.span)) := by
  rw [typeOf] at h
  rcases bind_eq_error_iff.mp h with ht | ⟨τ₁, ht, h⟩
  · exact .inl ht
  · refine .inr ⟨τ₁, ht, ?_⟩
    rcases bind_eq_error_iff.mp h with hu | ⟨found, hu, h⟩
    · exact .inl hu
    · refine .inr ⟨found, hu, ?_⟩
      cases τ₁ with
      | bool s' =>
          cases h
          exact .inl ⟨s', rfl, rfl⟩
      | arrow input output s' =>
          dsimp only at h
          split at h
          · cases h
          · next hresult =>
              cases h
              exact .inr ⟨input, output, s', rfl, hresult, rfl⟩

/-! ## The rules -/

/-- The typing relation, on types without spans. -/
inductive HasType : Context → Term → Ty → Prop where
  | var {Γ i s τ} : Γ.typeAt? i = some τ → HasType Γ (.var i s) τ
  | lam {Γ x σ t s τ} : HasType (Γ.push (.typed x σ)) t τ →
      HasType Γ (.lam x σ t s) (.arrow σ.eraseSpans τ .nowhere)
  | app {Γ t u s σ τ} : HasType Γ t (.arrow σ τ .nowhere) → HasType Γ u σ →
      HasType Γ (.app t u s) τ

theorem HasType.typeOf {Γ : Context} {t : Term} {τ : Ty} (h : HasType Γ t τ) :
    ∃ τ', t.typeOf .structural Γ = .ok τ' ∧ τ'.eraseSpans = τ := by
  induction h with
  | var h =>
      obtain ⟨τ', hτ', rfl⟩ := Option.map_eq_some_iff.mp h
      exact ⟨τ', Context.typeOf_eq_ok_iff.mpr hτ', rfl⟩
  | lam _ ih =>
      obtain ⟨τ', hτ', rfl⟩ := ih
      exact ⟨_, bind_eq_ok_iff.mpr ⟨τ', hτ', rfl⟩, rfl⟩
  | app _ _ iht ihu =>
      obtain ⟨τ₁, hτ₁, h₁⟩ := iht
      obtain ⟨τ₂, hτ₂, h₂⟩ := ihu
      obtain ⟨a, b, s', rfl, ha, hb⟩ := Ty.eraseSpans_eq_arrow h₁
      -- The input of the function and the type of the argument differ in their spans only.
      have hsame : a.sameAs τ₂ := (Ty.sameAs_iff a τ₂).mpr (ha.trans h₂.symm)
      exact ⟨b, Term.typeOf_app_eq_ok_iff.mpr ⟨a, b, s', τ₂, hτ₁, hτ₂, if_pos hsame⟩, hb⟩

theorem HasType.of_typeOf {Γ : Context} {t : Term} {τ : Ty} (h : t.typeOf .structural Γ = .ok τ) :
    HasType Γ t τ.eraseSpans := by
  induction t generalizing Γ τ with
  | var i s =>
      have hi := Context.typeOf_eq_ok_iff.mp h
      exact .var (by rw [Context.typeAt?, hi, Option.map_some])
  | lam x σ t s ih =>
      obtain ⟨τ', hτ', rfl⟩ := bind_pure_eq_ok_iff.mp h
      exact .lam (ih hτ')
  | app t u s iht ihu =>
      obtain ⟨a, b, s', τ₂, hτ₁, hτ₂, hresult⟩ := Term.typeOf_app_eq_ok_iff.mp h
      rw [ApplicationRule.result?, Option.ite_none_right_eq_some] at hresult
      obtain ⟨hsame, heq⟩ := hresult
      cases heq
      have ht := iht hτ₁
      rw [Ty.eraseSpans, (Ty.sameAs_iff a τ₂).mp hsame] at ht
      exact .app ht (ihu hτ₂)

/-- `typeOf` computes the type there is, and finds one if there is any. -/
theorem hasType_iff {Γ : Context} {t : Term} {τ : Ty} :
    HasType Γ t τ ↔ ∃ τ', t.typeOf .structural Γ = .ok τ' ∧ τ'.eraseSpans = τ := by
  constructor
  · exact HasType.typeOf
  · rintro ⟨τ', h, rfl⟩
    exact .of_typeOf h

/-- The form in which a type that has been kept is found again. -/
theorem HasType.typeOf_sameAs {Γ : Context} {t : Term} {τ : Ty} (h : HasType Γ t τ.eraseSpans) :
    ∃ τ', t.typeOf .structural Γ = .ok τ' ∧ τ'.sameAs τ := by
  obtain ⟨τ', hτ', hsame⟩ := hasType_iff.mp h
  exact ⟨τ', hτ', (Ty.sameAs_iff τ' τ).mpr hsame⟩

theorem HasType.scoped {Γ : Context} {t : Term} {τ : Ty} (h : HasType Γ t τ) :
    t.Scoped Γ.size := by
  induction h with
  | var h => exact (Term.scoped_var ..).mpr (Context.lt_size_of_typeAt? h)
  | lam _ ih => exact (Term.scoped_lam ..).mpr ih
  | app _ _ iht ihu => exact (Term.scoped_app ..).mpr ⟨iht, ihu⟩

/-! ## Renaming and substitution -/

theorem HasType.rename {Γ Δ : Context} {t : Term} {τ : Ty} {ρ : Renaming} (h : HasType Γ t τ)
    (hρ : ∀ i σ, Γ.typeAt? i = some σ → Δ.typeAt? (ρ i) = some σ) : HasType Δ (t.rename ρ) τ := by
  induction h generalizing Δ ρ with
  | var hi => exact .var (hρ _ _ hi)
  | lam _ ih =>
      refine .lam (ih ?_)
      intro i σ hi
      cases i with
      | zero => exact hi
      | succ i => exact hρ i σ hi
  | app _ _ iht ihu => exact .app (iht hρ) (ihu hρ)

theorem HasType.substAll {Γ Δ : Context} {t : Term} {τ : Ty} {θ : Substitution} (h : HasType Γ t τ)
    (hθ : ∀ i σ s, Γ.typeAt? i = some σ → HasType Δ (θ i s) σ) : HasType Δ (t.substAll θ) τ := by
  induction h generalizing Δ θ with
  | var hi => exact hθ _ _ _ hi
  | lam _ ih =>
      refine .lam (ih ?_)
      intro i σ s hi
      cases i with
      | zero => exact .var hi
      | succ i => exact (hθ i σ s hi).rename fun _ _ h => h
  | app _ _ iht ihu => exact .app (iht hθ) (ihu hθ)

theorem HasType.contract {Γ : Context} {x : String} {σ τ : Ty} {t u : Term}
    (ht : HasType (Γ.push (.typed x σ)) t τ) (hu : HasType Γ u σ.eraseSpans) :
    HasType Γ (t.contract u) τ := by
  refine ht.substAll ?_
  intro i ρ s hi
  cases i with
  | zero =>
      cases hi
      exact hu
  | succ i => exact .var hi

/-! ## Preservation and progress -/

/-- A reduct has the type of the redex. -/
theorem Term.Reduces.hasType {Γ : Context} {t u : Term} {τ : Ty} (h : t.Reduces u)
    (ht : HasType Γ t τ) : HasType Γ u τ := by
  induction h generalizing τ with
  | beta _ =>
      cases ht with
      | app hf hu =>
          cases hf with
          | lam hb => exact hb.contract hu
  | head _ ih =>
      cases ht with
      | app hf hu => exact .app (ih hf) hu
  | arg _ _ ih =>
      cases ht with
      | app hf hu => exact .app hf (ih hu)

/-- A type is kept all along a run. -/
theorem Term.Run.hasType {Γ : Context} {n : Nat} {t u : Term} {τ : Ty} (h : Term.Run n t u)
    (ht : HasType Γ t τ) : HasType Γ u τ :=
  h.induct (P := (HasType Γ · τ)) (fun _ _ hs => hs.hasType) ht

/-- Without a context there is no variable to get stuck at. -/
theorem HasType.not_stuck {t : Term} {τ : Ty} (h : HasType .empty t τ) : ¬ t.Stuck :=
  h.scoped.not_stuck

end Stlc
