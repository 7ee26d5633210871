import Stlc.Proofs.Parts
import Stlc.Proofs.Program
import Stlc.Proofs.Resolution

/-!
# Typing with names

An expression can be typed before its names are resolved: `Expr.typeOf` looks a variable up by its
name, among the abstractions around it and then in the context, and counts nothing. Typing the term
that the expression resolves to has the same outcome (`Expr.typeOf_of_resolveIn`), failures
included. All that the expression cannot tell is the index that a failure reports beside the name
(`TypingError.inSource?`).

The two agree on a variable because the binding at the index where a name is found is the last
binding of that name (`Context.get?_of_findIdx?`).
-/

namespace Stlc

/-! ## Looking a name up -/

namespace Context

def binding? (Γ : Context) (x : String) : Option Binding :=
  (Γ.toList.filter (·.name == x)).getLast?

theorem binding?_push_self (Γ : Context) (b : Binding) :
    binding? (Γ.push b) b.name = some b := by
  rw [binding?, Stack.toList_push, List.filter_append]
  simp

theorem binding?_push_of_ne {b : Binding} {x : String} (h : b.name ≠ x) (Γ : Context) :
    binding? (Γ.push b) x = Γ.binding? x := by
  rw [binding?, Stack.toList_push, List.filter_append]
  simp [h, binding?]

/-- Where a name is found, there is the last binding of that name. -/
theorem get?_of_findIdx? {Γ : Context} {x : String} {i : Nat}
    (h : Γ.names.findIdx? (· == x) = some i) :
    ∃ b, Γ.get? i = some b ∧ Γ.binding? x = some b ∧ b.name = x := by
  induction Γ using Stack.pushInduction generalizing i with
  | empty => cases h
  | push b Γ ih =>
      rw [names, Stack.map_push] at h
      by_cases hx : b.name = x
      · subst hx
        rw [Stack.findIdx?_push_self] at h
        cases h
        exact ⟨b, rfl, binding?_push_self Γ b, rfl⟩
      · rw [Stack.findIdx?_push_of_ne hx] at h
        obtain ⟨k, hk, rfl⟩ := Option.map_eq_some_iff.mp h
        rw [binding?_push_of_ne hx, Stack.get?_push_succ]
        exact ih hk

/-- The context under some abstractions, listed innermost first. -/
def under (Γ : Context) : List (String × Ty) → Context
  | [] => Γ
  | (x, τ) :: binders => (Γ.under binders).push (.typed x τ)

end Context

/-! ## The types of expressions -/

namespace Expr

inductive TypingError where
  /-- A variable that nothing binds. -/
  | unbound (name : String) (span : Span)
  /-- A variable that is bound without a type. -/
  | untyped (name : String) (span : Span)
  /-- The function of an application, at `span`, has a type that is not an arrow. -/
  | notAFunction (found : Ty) (span : Span)
  /-- The function at `fnSpan` takes `expected`; the argument at `span` has type `found`. -/
  | mismatch (expected found : Ty) (span fnSpan : Span)
deriving DecidableEq

/-- What a name means: the innermost abstraction of that name, or else the last binding of that
name in the context. -/
def meaning? (binders : List (String × Ty)) (Γ : Context) (x : String) : Option Binding :=
  match binders.find? (·.1 == x) with
  | some (y, τ) => some (.typed y τ)
  | none => Γ.binding? x

/-- The type of an expression under some abstractions, listed innermost first, in a context. -/
def typeOf (rule : ApplicationRule) (binders : List (String × Ty)) (Γ : Context) :
    Expr → Except TypingError Ty
  | var x s =>
    match meaning? binders Γ x with
    | none => throw (.unbound x s)
    | some (.untyped _) => throw (.untyped x s)
    | some (.typed _ τ) => return τ
  | lam x τ e s => do return .arrow τ (← e.typeOf rule ((x, τ) :: binders) Γ) s
  | app e f _ => do
    let τ₁ ← e.typeOf rule binders Γ
    let τ₂ ← f.typeOf rule binders Γ
    match τ₁ with
    | .arrow input output _ =>
      match rule.result? input output τ₂ with
      | some τ => return τ
      | none => throw (.mismatch input τ₂ f.span e.span)
    | .bool _ => throw (.notAFunction τ₁ e.span)

def HasVarAt : Expr → String → Span → Prop
  | var y s', x, s => y = x ∧ s' = s
  | lam _ _ e _, x, s => e.HasVarAt x s
  | app e f _, x, s => e.HasVarAt x s ∨ f.HasVarAt x s

end Expr

/-- What a failure is about in the source. Of the variable without a type it is the name, not the
index; and a variable that counts past the context has no name. -/
def TypingError.inSource? : TypingError → Option Expr.TypingError
  | unboundIndex .. => none
  | untypedBinding x _ s => some (.untyped x s)
  | notAFunction found s => some (.notAFunction found s)
  | mismatch expected found s s' => some (.mismatch expected found s s')

namespace Expr

theorem meaning?_cons_self (x : String) (τ : Ty) (binders : List (String × Ty)) (Γ : Context) :
    meaning? ((x, τ) :: binders) Γ x = some (.typed x τ) := by
  simp [meaning?]

theorem meaning?_cons_of_ne {x y : String} (h : y ≠ x) (τ : Ty) (binders : List (String × Ty))
    (Γ : Context) : meaning? ((y, τ) :: binders) Γ x = meaning? binders Γ x := by
  simp [meaning?, h]

/-- An abstraction is one more binding, after those of the context. -/
theorem meaning?_eq (binders : List (String × Ty)) (Γ : Context) (x : String) :
    meaning? binders Γ x = (Γ.under binders).binding? x := by
  induction binders with
  | nil => rfl
  | cons b binders ih =>
      obtain ⟨y, τ⟩ := b
      rw [Context.under]
      by_cases hyx : y = x
      · subst hyx
        rw [meaning?_cons_self]
        exact (Context.binding?_push_self (Γ.under binders) (.typed y τ)).symm
      · have hname : (Binding.typed y τ).name ≠ x := hyx
        rw [meaning?_cons_of_ne hyx, Context.binding?_push_of_ne hname]
        exact ih

/-- What an expression resolves to has the type of the expression, or has none for the same
reason. -/
theorem typeOf_of_resolveIn {e : Expr} (binders : List (String × Ty)) {Γ : Context} {t : Term}
    (h : e.resolveIn (Γ.under binders).names = .ok t) (rule : ApplicationRule) :
    (t.typeOf rule (Γ.under binders)).mapError TypingError.inSource? =
      (e.typeOf rule binders Γ).mapError some := by
  induction e generalizing binders t with
  | var x s =>
      obtain ⟨i, hi, rfl⟩ := resolveIn_var_eq_ok_iff.mp h
      obtain ⟨b, hget, hbinding, hname⟩ := Context.get?_of_findIdx? hi
      rw [Term.typeOf, Context.typeOf, typeOf, meaning?_eq, hget, hbinding]
      cases b with
      | untyped y =>
          obtain rfl : y = x := hname
          rfl
      | typed y τ => rfl
  | lam x τ e s ih =>
      obtain ⟨t, ht, rfl⟩ := bind_pure_eq_ok_iff.mp h
      rw [Term.typeOf, typeOf, mapError_bind, mapError_bind]
      -- The two traversals cross the abstraction by the same push.
      have hbody := ih ((x, τ) :: binders) ht
      rw [Context.under] at hbody
      rw [hbody]
      rfl
  | app e f s ihe ihf =>
      obtain ⟨t, u, ht, hu, rfl⟩ := bind_bind_pure_eq_ok_iff.mp h
      rw [Term.typeOf, typeOf, mapError_bind, mapError_bind, ihe binders ht]
      apply bind_congr
      intro τ₁
      rw [mapError_bind, mapError_bind, ihf binders hu, span_of_resolveIn ht, span_of_resolveIn hu]
      apply bind_congr
      intro τ₂
      cases τ₁ with
      | bool s' => rfl
      | arrow input output s' =>
          dsimp only
          cases rule.result? input output τ₂ with
          | none => rfl
          | some τ => rfl

/-! ## What failures are about -/

theorem HasVarAt.of_isPart {d e : Expr} {x : String} {s : Span} (h : d.HasVarAt x s)
    (hd : d.IsPart e) : e.HasVarAt x s := by
  induction hd with
  | self => exact h
  | body _ ih => exact ih
  | fn _ ih => exact .inl ih
  | arg _ ih => exact .inr ih

/-- Where the failure says that something is, the expression has such a thing: the variable, or the
function and the argument of one application. -/
def TypingError.IsAbout (e : Expr) : TypingError → Prop
  | unbound x s => e.HasVarAt x s
  | untyped x s => e.HasVarAt x s
  | notAFunction _ s => ∃ fn arg s', (app fn arg s').IsPart e ∧ fn.span = s
  | mismatch _ _ s s' => ∃ fn arg s'', (app fn arg s'').IsPart e ∧ fn.span = s' ∧ arg.span = s

theorem TypingError.IsAbout.of_isPart {err : TypingError} {d e : Expr} (h : err.IsAbout d)
    (hd : d.IsPart e) : err.IsAbout e := by
  cases err with
  | unbound x s => exact HasVarAt.of_isPart h hd
  | untyped x s => exact HasVarAt.of_isPart h hd
  | notAFunction found s =>
      obtain ⟨fn, arg, s', happ, hs⟩ := h
      exact ⟨fn, arg, s', happ.trans hd, hs⟩
  | mismatch expected found s s' =>
      obtain ⟨fn, arg, s'', happ, hs⟩ := h
      exact ⟨fn, arg, s'', happ.trans hd, hs⟩

theorem isAbout_of_typeOf {e : Expr} {rule : ApplicationRule} {binders : List (String × Ty)}
    {Γ : Context} {err : TypingError} (h : e.typeOf rule binders Γ = .error err) :
    err.IsAbout e := by
  induction e generalizing binders with
  | var y s =>
      rw [typeOf] at h
      split at h
      · cases h
        exact ⟨rfl, rfl⟩
      · cases h
        exact ⟨rfl, rfl⟩
      · cases h
  | lam y τ e s ih => exact (ih (bind_pure_eq_error_iff.mp h)).of_isPart (.body .self)
  | app e f s ihe ihf =>
      rcases bind_eq_error_iff.mp h with h | ⟨τ₁, _, h⟩
      · exact (ihe h).of_isPart (.fn .self)
      · rcases bind_eq_error_iff.mp h with h | ⟨τ₂, _, h⟩
        · exact (ihf h).of_isPart (.arg .self)
        · -- Both parts are typed, and what is left complains about this application.
          cases τ₁ with
          | bool =>
              cases h
              exact ⟨e, f, s, .self, rfl⟩
          | arrow a b =>
              simp only at h
              split at h
              · cases h
              · cases h
                exact ⟨e, f, s, .self, rfl, rfl⟩

/-- Typing what an expression resolves to fails about the expression. -/
theorem isAbout_of_resolve {e : Expr} {Γ : Context} {t : Term} {rule : ApplicationRule}
    {err : Stlc.TypingError} (h : e.resolve Γ = .ok t) (herr : t.typeOf rule Γ = .error err) :
    ∃ err', err.inSource? = some err' ∧ err'.IsAbout e := by
  have hagree := typeOf_of_resolveIn [] h rule
  rw [Context.under, herr] at hagree
  obtain ⟨err', he, hsome⟩ := mapError_eq_error_iff.mp hagree.symm
  exact ⟨err', hsome.symm, isAbout_of_typeOf he⟩

theorem hasVarAt_of_untypedBinding {e : Expr} {Γ : Context} {t : Term} {rule : ApplicationRule}
    {x : String} {i : Nat} {s : Span} (h : e.resolve Γ = .ok t)
    (herr : t.typeOf rule Γ = .error (.untypedBinding x i s)) : e.HasVarAt x s := by
  obtain ⟨err, hsome, habout⟩ := isAbout_of_resolve h herr
  cases hsome
  exact habout

/-- The variables of a phrase are among its tokens, where they stand. -/
theorem Derives.ident_mem_of_hasVarAt {n : Phrase} {ls : List Lexeme} {e : Expr}
    (h : Derives n ls e) {x : String} {s : Span} (hx : e.HasVarAt x s) : ⟨.ident x, s⟩ ∈ ls := by
  induction h with
  | var =>
      obtain ⟨rfl, rfl⟩ := hx
      exact List.mem_singleton_self _
  | paren _ ih => exact List.mem_cons_of_mem _ (List.mem_append_left _ (ih hx))
  | atom _ ih => exact ih hx
  | app _ _ ihe ihf =>
      rcases hx with hx | hx
      · exact List.mem_append_left _ (ihe hx)
      · exact List.mem_append_right _ (ihf hx)
  | spine _ ih => exact ih hx
  | lam _ _ ih => simp [ih hx]

theorem spells_of_hasVarAt {source : String} {e : Expr} (h : parse source = .ok e) {x : String}
    {s : Span} (hx : e.HasVarAt x s) : s.Spells source x := by
  obtain ⟨ls, hscan, hls⟩ := parse_eq_ok_iff.mp h
  exact (Scan.ofString_eq_iff.mp hscan).spells (hls.ident_mem_of_hasVarAt hx)

end Expr

theorem Program.spells_of_typed {p : Program} {rule : ApplicationRule} {x : String} {i : Nat}
    {s : Span} (h : p.typed rule = .error (.typing (.untypedBinding x i s))) :
    s.Spells p.source x := by
  obtain ⟨t, ht, herr⟩ := typed_eq_typing_error_iff.mp h
  obtain ⟨e, he, hresolve⟩ := term_eq_ok_iff.mp ht
  exact Expr.spells_of_hasVarAt he (Expr.hasVarAt_of_untypedBinding hresolve herr)

/-- `Expr.typeOf` works on names and `Term.typeOf` on indices; behind `resolve` they agree for both
rules, errors included, once `TypingError.inSource?` has dropped what only indices have. The name in
an `untypedBinding` error is that of a variable node of the expression (`HasVarAt`), so for a
program it is spelled in the source at the span of the error, from whichever command it comes. -/
theorem named_typing :
    (∀ (e : Expr) (Γ : Context) (rule : ApplicationRule) (t : Term), e.resolve Γ = .ok t →
      (t.typeOf rule Γ).mapError TypingError.inSource? = (e.typeOf rule [] Γ).mapError some ∧
      ∀ x i s, t.typeOf rule Γ = .error (.untypedBinding x i s) → e.HasVarAt x s) ∧
    (∀ (p : Program) (x : String) (i : Nat) (s : Span),
      (∀ rule, p.typed rule = .error (.typing (.untypedBinding x i s)) → s.Spells p.source x) ∧
      ∀ mode fuel, p.evaluate mode fuel = some (.error (.typing (.untypedBinding x i s))) ∨
        p.trace mode fuel = some (.error (.typing (.untypedBinding x i s))) →
          s.Spells p.source x) := by
  constructor
  · intro e Γ rule t h
    refine ⟨Expr.typeOf_of_resolveIn [] h rule, ?_⟩
    intro x i s herr
    exact Expr.hasVarAt_of_untypedBinding h herr
  · intro p x i s
    refine ⟨fun rule h => Program.spells_of_typed h, ?_⟩
    rintro mode fuel (h | h)
    · exact Program.spells_of_typed (Program.typed_of_evaluate_eq_typing_error h)
    · have heval := Program.trace_eq_error_iff.mp h
      exact Program.spells_of_typed (Program.typed_of_evaluate_eq_typing_error heval)

/-- The context binds `x` twice, without a type at last, and an abstraction binds it once more. -/
theorem named_typing_shadowed :
    let bool : Ty := .bool .nowhere
    let Γ : Context := .ofList [.typed "x" bool, .typed "f" (.arrow bool bool .nowhere),
      .untyped "x"]
    let p : Program := ⟨"(\\x:Bool. f x) x", Γ⟩
    let fn : Expr := .lam "x" (.bool ⟨4, 8⟩)
      (.app (.var "f" ⟨10, 11⟩) (.var "x" ⟨12, 13⟩) ⟨10, 13⟩) ⟨1, 13⟩
    let e : Expr := .app fn (.var "x" ⟨15, 16⟩) ⟨0, 16⟩
    p.expr = .ok e ∧
      (∃ t, fn.resolve Γ = .ok t ∧ (t.typeOf .structural Γ).mapError TypingError.inSource? =
        .ok (.arrow (.bool ⟨4, 8⟩) bool ⟨1, 13⟩)) ∧
      (∃ t, e.resolve Γ = .ok t ∧ (t.typeOf .structural Γ).mapError TypingError.inSource? =
        .error (some (.untyped "x" ⟨15, 16⟩))) ∧
      (⟨15, 16⟩ : Span).Spells p.source "x" := by
  intro bool Γ p fn e
  have hfn : fn.typeOf .structural [] Γ = .ok (.arrow (.bool ⟨4, 8⟩) bool ⟨1, 13⟩) := by cbv
  have he : e.typeOf .structural [] Γ = .error (.untyped "x" ⟨15, 16⟩) := by cbv
  have htyped : p.typed .structural = .error (.typing (.untypedBinding "x" 0 ⟨15, 16⟩)) := by cbv
  refine ⟨by cbv, ⟨_, rfl, ?_⟩, ⟨_, rfl, ?_⟩, (named_typing.2 p "x" 0 ⟨15, 16⟩).1 _ htyped⟩
  · rw [(named_typing.1 fn Γ .structural _ rfl).1, hfn]
    rfl
  · rw [(named_typing.1 e Γ .structural _ rfl).1, he]
    rfl

end Stlc
