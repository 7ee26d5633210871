import Stlc.Proofs.Program

/-!
# Types as propositions

Once `Bool` means a proposition, every type does: an arrow is an implication. Typing is sound for
each of these readings. A type that a term has follows from the types that its context declares
(`HasType.holds`), whatever `Bool` means. If it means something false, no closed term has it for a
type.

Conversely, what follows in every reading is the type of some term (`Context.inhabits_iff`). There
is only one base type, so that a type which no closed term has is as good as `Bool`: from a term
of one of them a term of the other can be made (`Ty.inhabited_or_bool`).

The main statement is `typing_consistent`.
-/

namespace Stlc

/-! ## Readings -/

/-- The type as a proposition, where `Bool` means `P` and an arrow is an implication. -/
def Ty.Holds (P : Prop) : Ty → Prop
  | bool _ => P
  | arrow a b _ => a.Holds P → b.Holds P

/-- All types that the context declares hold. Bindings without a type say nothing. -/
def Context.Holds (P : Prop) (Γ : Context) : Prop :=
  ∀ b ∈ Γ.entries, ∀ τ, b.type? = some τ → τ.Holds P

section

variable {P : Prop} {Γ : Context}

@[simp] theorem Ty.holds_eraseSpans (τ : Ty) : τ.eraseSpans.Holds P ↔ τ.Holds P := by
  induction τ with
  | bool s => exact Iff.rfl
  | arrow a b s iha ihb => exact imp_congr iha ihb

theorem Context.holds_push_typed {x : String} {τ : Ty} :
    Context.Holds P (Γ.push (.typed x τ)) ↔ τ.Holds P ∧ Γ.Holds P := by
  unfold Context.Holds
  rw [Stack.push, List.forall_mem_cons]
  simp [Binding.type?]

theorem Context.Holds.of_typeAt? {i : Nat} {τ : Ty} (hΓ : Γ.Holds P) (h : Γ.typeAt? i = some τ) :
    τ.Holds P := by
  obtain ⟨σ, hσ, rfl⟩ := Option.map_eq_some_iff.mp h
  obtain ⟨b, hb, hτ⟩ := Option.bind_eq_some_iff.mp hσ
  rw [Ty.holds_eraseSpans]
  exact hΓ b (List.mem_of_getElem? hb) σ hτ

/-- A type follows from those of the context. The induction is on the derivation: under a binder the
context declares the input type as well, and an application is modus ponens. -/
theorem HasType.holds {t : Term} {τ : Ty} (h : HasType Γ t τ) (hΓ : Γ.Holds P) : τ.Holds P := by
  induction h with
  | var hi => exact hΓ.of_typeAt? hi
  | @lam Γ x σ t s τ _ ih =>
      intro hσ
      rw [Ty.holds_eraseSpans] at hσ
      exact ih (Context.holds_push_typed.mpr ⟨hσ, hΓ⟩)
  | app _ _ iht ihu => exact iht hΓ (ihu hΓ)

end

/-- Where nothing is declared, nothing has to be assumed. -/
theorem Context.holds_empty (P : Prop) : Context.Holds P .empty := nofun

theorem HasType.ne_bool {t : Term} {τ : Ty} (h : HasType .empty t τ) (s : Span) : τ ≠ .bool s := by
  intro hτ
  have hbool : τ.Holds False := h.holds (Context.holds_empty False)
  rw [hτ] at hbool
  exact hbool

/-! ## Terms for what follows -/

def Context.Inhabits (Γ : Context) (τ : Ty) : Prop := ∃ t, HasType Γ t τ.eraseSpans

namespace Context.Inhabits

variable {Γ : Context} {a b : Ty} {s : Span} {x : String}

theorem var_zero : Context.Inhabits (Γ.push (.typed x a)) a := ⟨.var 0 .nowhere, .var rfl⟩

theorem weaken {c : Binding} (h : Γ.Inhabits a) : Context.Inhabits (Γ.push c) a := by
  obtain ⟨t, ht⟩ := h
  exact ⟨t.rename (· + 1), ht.rename fun _ _ hi => hi⟩

theorem lam (h : Context.Inhabits (Γ.push (.typed x a)) b) : Γ.Inhabits (.arrow a b s) := by
  obtain ⟨t, ht⟩ := h
  exact ⟨.lam x a t .nowhere, .lam ht⟩

theorem app (h : Γ.Inhabits (.arrow a b s)) (ha : Γ.Inhabits a) : Γ.Inhabits b := by
  obtain ⟨t, ht⟩ := h
  obtain ⟨u, hu⟩ := ha
  exact ⟨.app t u .nowhere, .app ht hu⟩

theorem of_mem {c : Binding} {τ : Ty} (hc : c ∈ Γ.entries) (hτ : c.type? = some τ) :
    Γ.Inhabits τ := by
  obtain ⟨i, hi⟩ := List.mem_iff_getElem?.mp hc
  have htype : Γ.typeAt? i = some τ.eraseSpans := by
    rw [Context.typeAt?, Stack.get?, hi, Option.bind_some, hτ, Option.map_some]
  exact ⟨.var i .nowhere, .var htype⟩

theorem holds {P : Prop} (h : Γ.Inhabits a) (hΓ : Γ.Holds P) : a.Holds P := by
  obtain ⟨t, ht⟩ := h
  exact (Ty.holds_eraseSpans a).mp (ht.holds hΓ)

end Context.Inhabits

/-- A type has terms everywhere, or just where `Bool` has. An arrow is of the second kind if its
input is of the first and its output of the second, and that is where an implication fails. -/
theorem Ty.inhabited_or_bool (τ : Ty) :
    (∀ Γ : Context, Γ.Inhabits τ) ∨ ∀ Γ : Context, Γ.Inhabits τ ↔ Γ.Inhabits (.bool .nowhere) := by
  induction τ with
  | bool s => exact .inr fun Γ => Iff.rfl
  | arrow a b s iha ihb =>
      rcases ihb with hb | hb
      · exact .inl fun Γ => .lam (x := "x") (hb _)
      · rcases iha with ha | ha
        · right
          intro Γ
          constructor
          · intro h
            exact (hb Γ).mp (h.app (ha Γ))
          · intro h
            apply Context.Inhabits.lam (x := "x")
            exact (hb _).mpr h.weaken
        · left
          intro Γ
          apply Context.Inhabits.lam (x := "x")
          exact (hb _).mpr ((ha _).mp .var_zero)

/-- The types that terms have in a context are those that follow from what it declares. -/
theorem Context.inhabits_iff {Γ : Context} {τ : Ty} :
    Γ.Inhabits τ ↔ ∀ P, Γ.Holds P → τ.Holds P := by
  constructor
  · intro h P hΓ
    exact h.holds hΓ
  · intro h
    rcases τ.inhabited_or_bool with hτ | hτ
    · exact hτ Γ
    · -- Then the type is false if `Bool` is, and so is one of those that are declared.
      have hfalse : ¬ τ.Holds False := by
        intro hholds
        have hctx : Context.Holds False (Stack.empty.push (.typed "x" τ)) :=
          Context.holds_push_typed.mpr ⟨hholds, Context.holds_empty False⟩
        exact ((hτ _).mp .var_zero).holds hctx
      by_contra hnone
      apply hfalse
      apply h
      intro c hc σ hσ
      rcases σ.inhabited_or_bool with hall | hbool
      · exact (hall .empty).holds (Context.holds_empty False)
      · exact absurd ((hτ Γ).mpr ((hbool Γ).mp (.of_mem hc hσ))) hnone

/-- **Consistency.** Read `bool` as a proposition `P` and `→` as implication (`Ty.Holds`): the
type that `typeOf` finds under `structural` follows from the declared types of `Γ`. With
`P := False` no program without a context has type `bool`. Conversely a type that follows for
every `P` is inhabited (`Context.inhabits_iff`). -/
theorem typing_consistent :
    (∀ (P : Prop) (Γ : Context) (t : Term) (τ : Ty), t.typeOf .structural Γ = .ok τ →
      Γ.Holds P → τ.Holds P) ∧
    (∀ (source : String) (t : Term) (τ : Ty),
      Program.typed ⟨source, .empty⟩ .structural = .ok (t, τ) → ∀ s, τ ≠ .bool s) ∧
    (∀ (Γ : Context) (τ : Ty), (∀ P, Γ.Holds P → τ.Holds P) →
      ∃ (t : Term) (τ' : Ty), t.typeOf .structural Γ = .ok τ' ∧ τ'.sameAs τ) := by
  refine ⟨?_, ?_, ?_⟩
  · intro P Γ t τ h hΓ
    exact (Ty.holds_eraseSpans τ).mp ((HasType.of_typeOf h).holds hΓ)
  · intro source t τ h s hτ
    obtain ⟨_, htype⟩ := Program.typed_eq_ok_iff.mp h
    subst hτ
    exact (HasType.of_typeOf htype).ne_bool .nowhere rfl
  · intro Γ τ h
    obtain ⟨t, ht⟩ := Context.inhabits_iff.mpr h
    exact ⟨t, ht.typeOf_sameAs⟩

/-- A function of the context that is used twice, where `Bool` is false; a program that has a
type; and Peirce's law for `Bool` alone, which holds in every reading. -/
theorem typing_consistent_false_bool :
    let bool : Ty := .bool .nowhere
    let endo : Ty := .arrow bool bool .nowhere
    let peirce : Ty := .arrow (.arrow endo bool .nowhere) bool .nowhere
    let Γ : Context := .ofList [.typed "f" endo, .untyped "y"]
    let t : Term := .lam "x" bool (.app (.var 2 .nowhere) (.app (.var 2 .nowhere) (.var 0 .nowhere)
      .nowhere) .nowhere) .nowhere
    let σ : Ty := .arrow (.bool ⟨4, 8⟩) (.bool ⟨10, 14⟩) ⟨4, 14⟩
    (t.typeOf .structural Γ = .ok endo ∧ Γ.Holds False ∧ endo.Holds False) ∧
    ((∃ u, Program.typed ⟨"(\\f:Bool->Bool. f) (\\x:Bool. x)", .empty⟩ .structural = .ok (u, σ)) ∧
      ∀ s, σ ≠ .bool s) ∧
    ((∀ P, Γ.Holds P → peirce.Holds P) ∧
      ∃ (u : Term) (τ : Ty), u.typeOf .structural Γ = .ok τ ∧ τ.sameAs peirce) := by
  intro bool endo peirce Γ t σ
  obtain ⟨hsound, hprogram, hcomplete⟩ := typing_consistent
  have ht : t.typeOf .structural Γ = .ok endo := rfl
  have hΓ : Γ.Holds False := by
    intro b hb τ hτ
    rcases List.mem_pair.mp hb with rfl | rfl
    · cases hτ
    · cases hτ
      exact id
  have hu : Program.typed ⟨"(\\f:Bool->Bool. f) (\\x:Bool. x)", .empty⟩ .structural =
      .ok (.app (.lam "f" σ (.var 0 ⟨16, 17⟩) ⟨1, 17⟩)
        (.lam "x" (.bool ⟨23, 27⟩) (.var 0 ⟨29, 30⟩) ⟨20, 30⟩) ⟨0, 31⟩, σ) := by cbv
  have hpeirce : ∀ P, Γ.Holds P → peirce.Holds P := fun P _ h => h id
  exact ⟨⟨ht, hΓ, hsound False Γ t endo ht hΓ⟩, ⟨⟨_, hu⟩, hprogram _ _ _ hu⟩, hpeirce,
    hcomplete Γ peirce hpeirce⟩

end Stlc
