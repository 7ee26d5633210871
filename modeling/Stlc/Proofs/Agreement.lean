import Stlc.Proofs.Synthesis

/-!
# Where the two rules agree

Of an application `formerOnly` answers the type of the argument, and `structural` the output type of
the function, once its input type is that of the argument. Say that the rules agree on the function
and on the argument. Then they agree on the application just if its function goes from a type to the
same type (`Site.agrees_app_iff`), and nothing else can set them apart.

The main statement is `rules_agree_iff`.
-/

namespace Stlc

namespace Site

/-- If the part is an application, its function goes from a type to the same type. -/
def IsEndo (Γ : Context) (n : Site) : Prop :=
  ∀ t u s input output s', n.term = .app t u s →
    t.typeOf .structural (Γ.under n.binders) = .ok (.arrow input output s') → input.sameAs output

/-- Both rules find a type for the part, and the same one, wherever it was read. -/
def Agrees (Γ : Context) (n : Site) : Prop :=
  ∃ τ τ', n.term.typeOf .structural (Γ.under n.binders) = .ok τ ∧
    n.term.typeOf .formerOnly (Γ.under n.binders) = .ok τ' ∧ τ'.sameAs τ

variable {Γ : Context} {binders : List (String × Ty)} {t u : Term} {s s' : Span}
  {input output : Ty}

theorem isEndo_var (i : Nat) (s : Span) : IsEndo Γ ⟨binders, .var i s⟩ := nofun

theorem isEndo_lam (x : String) (σ : Ty) (t : Term) (s : Span) :
    IsEndo Γ ⟨binders, .lam x σ t s⟩ := nofun

theorem isEndo_app_iff
    (h : t.typeOf .structural (Γ.under binders) = .ok (.arrow input output s')) :
    IsEndo Γ ⟨binders, .app t u s⟩ ↔ input.sameAs output := by
  constructor
  · intro hendo
    exact hendo t u s input output s' rfl h
  · intro hsame t₁ u₁ s₁ input₁ output₁ s₁' happ h₁
    cases happ
    rw [h] at h₁
    cases h₁
    exact hsame

theorem agrees_iff {τ τ' : Ty} (h : t.typeOf .structural (Γ.under binders) = .ok τ)
    (h' : t.typeOf .formerOnly (Γ.under binders) = .ok τ') :
    Agrees Γ ⟨binders, t⟩ ↔ τ'.sameAs τ := by
  constructor
  · intro hagrees
    obtain ⟨τ₁, τ₁', h₁, h₁', hsame⟩ := hagrees
    rw [h] at h₁
    rw [h'] at h₁'
    cases h₁
    cases h₁'
    exact hsame
  · intro hsame
    exact ⟨τ, τ', h, h', hsame⟩

/-- The type of a variable is read off the context by either rule. -/
theorem agrees_var {i : Nat} (h : IsTypable .structural Γ ⟨binders, .var i s⟩) :
    Agrees Γ ⟨binders, .var i s⟩ := by
  obtain ⟨τ, hτ⟩ := h
  have htyped := hτ.typeOf
  exact (agrees_iff htyped htyped).mpr ((τ.sameAs_iff τ).mpr rfl)

theorem Agrees.lam {x : String} {σ : Ty} (h : Agrees Γ ⟨(x, σ) :: binders, t⟩) (s : Span) :
    Agrees Γ ⟨binders, .lam x σ t s⟩ := by
  obtain ⟨τ, τ', hτ, hτ', hsame⟩ := h
  refine ⟨.arrow σ τ s, .arrow σ τ' s, bind_pure_eq_ok_iff.mpr ⟨τ, hτ, rfl⟩,
    bind_pure_eq_ok_iff.mpr ⟨τ', hτ', rfl⟩, ?_⟩
  rw [Ty.sameAs_iff] at hsame ⊢
  rw [Ty.eraseSpans, Ty.eraseSpans, hsame]

/-- Where the rules agree on the function and on the argument, they agree on the application just if
its function goes from a type to the same type. -/
theorem agrees_app_iff (h : IsTypable .structural Γ ⟨binders, .app t u s⟩)
    (ht : Agrees Γ ⟨binders, t⟩) (hu : Agrees Γ ⟨binders, u⟩) :
    Agrees Γ ⟨binders, .app t u s⟩ ↔ IsEndo Γ ⟨binders, .app t u s⟩ := by
  obtain ⟨τ, hτ⟩ := h
  obtain ⟨input, output, s', found, hfn, harg, hresult⟩ :=
    Term.typeOf_app_eq_ok_iff.mp hτ.typeOf
  obtain ⟨fnType, fnType', hfnType, hfn', hfnSame⟩ := ht
  obtain ⟨argType, found', hargType, harg', hargSame⟩ := hu
  cases hfn.symm.trans hfnType
  cases harg.symm.trans hargType
  rw [Ty.sameAs_iff] at hfnSame hargSame
  obtain ⟨input', output', s'', rfl, hinput, -⟩ := Ty.eraseSpans_eq_arrow hfnSame
  cases ApplicationRule.fits_iff.mpr hresult with
  | structural hfound =>
      have hargInput : found'.eraseSpans = input.eraseSpans := hargSame.trans hfound.symm
      -- The argument has the input type, so it has the outermost former of that type as well.
      have hformer : input'.former = found'.former := by
        rw [← input'.former_eraseSpans, hinput, ← hargInput, found'.former_eraseSpans]
      have hcoarse : (Term.app t u s).typeOf .formerOnly (Γ.under binders) = .ok found' := by
        apply Term.typeOf_app_eq_ok_iff.mpr
        exact ⟨_, _, _, _, hfn', harg', ApplicationRule.fits_iff.mp (.formerOnly hformer)⟩
      rw [agrees_iff hτ.typeOf hcoarse, isEndo_app_iff hfn, Ty.sameAs_iff, Ty.sameAs_iff,
        hargInput]

end Site

namespace Term

theorem mem_sites_self (t : Term) (binders : List (String × Ty)) :
    ⟨binders, t⟩ ∈ t.sites binders := by
  cases t <;> simp [sites]

/-- The rules agree throughout a typed term just if its applications are all of functions from a
type to the same type. The induction leaves the term itself, where they agree on its own parts. -/
theorem sites_agree_iff {Γ : Context} {t : Term} {τ : Ty} (binders : List (String × Ty))
    (h : HasTypeBy .structural (Γ.under binders) t τ) :
    (∀ n ∈ t.sites binders, n.Agrees Γ) ↔ ∀ n ∈ t.sites binders, n.IsEndo Γ := by
  induction t generalizing binders τ with
  | var i s =>
      rw [sites, List.forall_mem_singleton, List.forall_mem_singleton]
      exact iff_of_true (Site.agrees_var ⟨τ, h⟩) (Site.isEndo_var i s)
  | lam x σ t s ih =>
      cases h with
      | lam hbody =>
          simp only [sites, List.forall_mem_append, List.forall_mem_singleton]
          rw [← ih ((x, σ) :: binders) hbody]
          apply and_congr_right
          intro hparts
          have hagrees := hparts _ (t.mem_sites_self ((x, σ) :: binders))
          exact iff_of_true (hagrees.lam s) (Site.isEndo_lam x σ t s)
  | app t u s iht ihu =>
      have htyped : Site.IsTypable .structural Γ ⟨binders, app t u s⟩ := ⟨τ, h⟩
      cases h with
      | app hfn harg _ =>
          simp only [sites, List.forall_mem_append, List.forall_mem_singleton]
          rw [← iht binders hfn, ← ihu binders harg]
          apply and_congr_right
          intro hfnParts
          apply and_congr_right
          intro hargParts
          exact Site.agrees_app_iff htyped (hfnParts _ (t.mem_sites_self binders))
            (hargParts _ (u.mem_sites_self binders))

end Term

/-- `formerOnly` answers the type of the argument, `structural` the output type of the function.
On a term that `structural` types, both find one type for every site (`Site.Agrees`), and so for
the term, iff the function of every application goes from a type to that type (`Site.IsEndo`). That
both find one type for a term says nothing of its parts, so the induction in
`Term.sites_agree_iff` is over all sites at once. -/
theorem rules_agree_iff {Γ : Context} {t : Term} {τ : Ty} (h : t.typeOf .structural Γ = .ok τ) :
    (∀ n ∈ t.sites [], n.IsEndo Γ) ↔
      (∃ τ', t.typeOf .formerOnly Γ = .ok τ' ∧ τ'.sameAs τ) ∧ ∀ n ∈ t.sites [], n.Agrees Γ := by
  have hiff := Term.sites_agree_iff (Γ := Γ) [] (.of_typeOf h)
  constructor
  · intro hendo
    have hagrees := hiff.mpr hendo
    obtain ⟨σ, τ', hσ, hτ', hsame⟩ := hagrees _ (t.mem_sites_self [])
    cases h.symm.trans hσ
    exact ⟨⟨τ', hτ', hsame⟩, hagrees⟩
  · intro hagrees
    exact hiff.mp hagrees.2

/-- Where `f` goes from `Bool` to `Bool`, the rules agree throughout `\y:Bool. f (f y)`. They do not
on `(\y:Bool. \z:Bool. y) x`, of which `formerOnly` answers the type of `x`. -/
theorem rules_agree_iff_endo_and_not :
    let bool (s : Span) : Ty := .bool s
    let Γ : Context := .ofList
      [.typed "f" (.arrow (bool ⟨2, 6⟩) (bool ⟨10, 14⟩) ⟨2, 14⟩), .typed "x" (bool ⟨2, 6⟩)]
    let t : Term := .lam "y" (bool ⟨3, 7⟩)
      (.app (.var 2 ⟨9, 10⟩) (.app (.var 2 ⟨12, 13⟩) (.var 0 ⟨14, 15⟩) ⟨12, 15⟩) ⟨9, 16⟩) ⟨0, 16⟩
    let u : Term := .app (.lam "y" (bool ⟨4, 8⟩) (.lam "z" (bool ⟨13, 17⟩) (.var 1 ⟨19, 20⟩)
      ⟨10, 20⟩) ⟨1, 20⟩) (.var 0 ⟨22, 23⟩) ⟨0, 23⟩
    (t.typeOf .structural Γ = .ok (.arrow (bool ⟨3, 7⟩) (bool ⟨10, 14⟩) ⟨0, 16⟩) ∧
      (∀ n ∈ t.sites [], n.IsEndo Γ) ∧
      t.typeOf .formerOnly Γ = .ok (.arrow (bool ⟨3, 7⟩) (bool ⟨3, 7⟩) ⟨0, 16⟩) ∧
      ∀ n ∈ t.sites [], n.Agrees Γ) ∧
    (u.typeOf .structural Γ = .ok (.arrow (bool ⟨13, 17⟩) (bool ⟨4, 8⟩) ⟨10, 20⟩) ∧
      u.typeOf .formerOnly Γ = .ok (bool ⟨2, 6⟩) ∧ ¬ ∀ n ∈ u.sites [], n.IsEndo Γ) := by
  intro bool Γ t u
  have ht : t.typeOf .structural Γ = .ok (.arrow (bool ⟨3, 7⟩) (bool ⟨10, 14⟩) ⟨0, 16⟩) := rfl
  have hu : u.typeOf .structural Γ = .ok (.arrow (bool ⟨13, 17⟩) (bool ⟨4, 8⟩) ⟨10, 20⟩) := rfl
  have hu' : u.typeOf .formerOnly Γ = .ok (bool ⟨2, 6⟩) := rfl
  have hendo : ∀ n ∈ t.sites [], n.IsEndo Γ := by
    simp only [t, Term.sites, List.cons_append, List.nil_append, List.forall_mem_cons]
    exact ⟨Site.isEndo_var 2 _, Site.isEndo_var 2 _, Site.isEndo_var 0 _,
      (Site.isEndo_app_iff rfl).mpr rfl, (Site.isEndo_app_iff rfl).mpr rfl,
      Site.isEndo_lam _ _ _ _, List.forall_mem_nil _⟩
  refine ⟨⟨ht, hendo, rfl, ((rules_agree_iff ht).mp hendo).2⟩, hu, hu', ?_⟩
  intro hall
  obtain ⟨⟨τ', hτ', hsame⟩, -⟩ := (rules_agree_iff hu).mp hall
  cases hu'.symm.trans hτ'
  cases hsame

end Stlc
