import Stlc.Proofs.First
import Stlc.Proofs.Resolution

/-!
# What a name refers to

A name refers to the innermost abstraction around it that binds it, and if there is none, to the
last binding of the name in the context. `Refers` says so with nothing but the list of the
abstractions and that of the bindings, and gives the number of binders in between.

Resolution puts these numbers in the place of the names and changes nothing else of an expression
(`Resolves`). It gives up at the first variable, counted from the left, whose name refers to nothing
(`Occurrence.IsBound`). The main statement is `resolution_finds_innermost`.

## Key lemmas

* `Refers.findIdx?`, `Refers.of_findIdx?` — what a name refers to is what a search from the inside
  finds first.
* `Resolves.resolveIn`, `Resolves.of_resolveIn` — the relation and the function.
* `Expr.exists_unbound_of_resolveIn` — a failure is about the first unbound variable.
* `Expr.resolveIn_isOk_iff` — what success depends on.
-/

namespace Stlc

/-! ## Searches from the inside -/

/-- Before the first entry that satisfies `p` there are as many as its index says. -/
theorem findIdx?_eq_some_iff_append {α : Type} {xs : List α} {p : α → Bool} {k : Nat} :
    xs.findIdx? p = some k ↔ ∃ before a after, xs = before ++ a :: after ∧
      (∀ b ∈ before, ¬ p b) ∧ p a ∧ before.length = k := by
  constructor
  · intro h
    obtain ⟨hk, ha, hbefore⟩ := List.findIdx?_eq_some_iff_getElem.mp h
    refine ⟨xs.take k, xs[k], xs.drop (k + 1), by simp, ?_, ha, List.length_take_of_le hk.le⟩
    intro b hb
    obtain ⟨j, hj, rfl⟩ := List.mem_take_iff_getElem.mp hb
    exact hbefore j (by omega)
  · rintro ⟨before, a, after, rfl, hbefore, ha, rfl⟩
    have hnone : before.findIdx? p = none :=
      List.findIdx?_eq_none_iff.mpr fun b hb => Bool.eq_false_iff.mpr (hbefore b hb)
    rw [List.findIdx?_append, hnone, List.findIdx?_cons, if_pos ha]
    simp

/-- The innermost entry that satisfies `p` is the last one, and its index is the number of those
that were pushed after it. -/
theorem Stack.findIdx?_eq_some_iff_toList {α : Type} {s : Stack α} {p : α → Bool} {k : Nat} :
    s.findIdx? p = some k ↔ ∃ before a after, s.toList = before ++ a :: after ∧ p a ∧
      (∀ b ∈ after, ¬ p b) ∧ after.length = k := by
  rw [findIdx?, findIdx?_eq_some_iff_append]
  constructor
  · rintro ⟨after, a, before, hs, hafter, ha, rfl⟩
    exact ⟨before.reverse, a, after.reverse, by simp [toList, hs], ha, by simpa using hafter,
      List.length_reverse⟩
  · rintro ⟨before, a, after, hs, ha, hafter, rfl⟩
    have hentries := congrArg List.reverse hs
    refine ⟨after.reverse, a, before.reverse, ?_, by simpa using hafter, ha, List.length_reverse⟩
    simpa [toList] using hentries

/-- What is searched for is found if it is there, and only then. -/
theorem Stack.exists_findIdx?_iff {scope : Stack String} {x : String} :
    (∃ k, scope.findIdx? (· == x) = some k) ↔ x ∈ scope.entries := by
  rw [← Option.ne_none_iff_exists', Ne, findIdx?_eq_none_iff, not_not]

namespace Context

/-- The names in force under abstractions, which are listed innermost first. -/
def namesUnder (Γ : Context) (binders : List String) : Stack String :=
  ⟨binders ++ Γ.names.entries⟩

theorem mem_namesUnder {Γ : Context} {binders : List String} {x : String} :
    x ∈ (Γ.namesUnder binders).entries ↔ x ∈ binders ∨ ∃ b ∈ Γ.toList, b.name = x := by
  simp [namesUnder, names, Stack.map, Stack.toList]

/-- Names that no abstraction binds are looked up in the context. -/
theorem findIdx?_namesUnder_of_not_mem {binders : List String} {x : String} (h : x ∉ binders)
    (Γ : Context) : (Γ.namesUnder binders).findIdx? (· == x) =
      (Γ.findIdx? (·.name == x)).map (· + binders.length) := by
  have hnone : binders.findIdx? (· == x) = none :=
    (Stack.findIdx?_eq_none_iff (s := ⟨binders⟩)).mpr h
  rw [namesUnder, Stack.findIdx?, List.findIdx?_append, hnone, names, Stack.map, List.findIdx?_map]
  rfl

end Context

/-! ## References -/

/-- The name `x`, under abstractions that bind the names listed, innermost first, refers to the
binding from which `k` binders separate it. -/
inductive Refers (Γ : Context) : List String → String → Nat → Prop where
  /-- An abstraction binds the name, and none that is closer does. -/
  | abstraction {inner outer x} : x ∉ inner → Refers Γ (inner ++ x :: outer) x inner.length
  /-- No abstraction binds the name; the context does, and not again after that. -/
  | context {binders before b after x} : x ∉ binders → Γ.toList = before ++ b :: after →
      b.name = x → (∀ c ∈ after, c.name ≠ x) → Refers Γ binders x (binders.length + after.length)

theorem Refers.findIdx? {Γ : Context} {binders : List String} {x : String} {k : Nat}
    (h : Refers Γ binders x k) : (Γ.namesUnder binders).findIdx? (· == x) = some k := by
  cases h with
  | @abstraction inner outer x hx =>
      have hentries := List.append_assoc inner (x :: outer) Γ.names.entries
      refine findIdx?_eq_some_iff_append.mpr ⟨inner, x, _, hentries, ?_, beq_self_eq_true x, rfl⟩
      intro y hy hyx
      exact hx (eq_of_beq hyx ▸ hy)
  | @context binders before b after x hx hΓ hb hafter =>
      have hfound : Γ.findIdx? (·.name == x) = some after.length :=
        Stack.findIdx?_eq_some_iff_toList.mpr
          ⟨before, b, after, hΓ, beq_iff_eq.mpr hb, by simpa using hafter, rfl⟩
      rw [Context.findIdx?_namesUnder_of_not_mem hx, hfound, Nat.add_comm]
      rfl

theorem Refers.of_findIdx? {Γ : Context} {binders : List String} {x : String} {k : Nat}
    (h : (Γ.namesUnder binders).findIdx? (· == x) = some k) : Refers Γ binders x k := by
  by_cases hx : x ∈ binders
  · obtain ⟨inner, outer, rfl, hinner⟩ := List.eq_append_cons_of_mem hx
    have hrefers : Refers Γ (inner ++ x :: outer) x inner.length := .abstraction hinner
    rw [hrefers.findIdx?] at h
    cases h
    exact hrefers
  · rw [Context.findIdx?_namesUnder_of_not_mem hx] at h
    obtain ⟨i, hi, rfl⟩ := Option.map_eq_some_iff.mp h
    obtain ⟨before, b, after, hΓ, hb, hafter, rfl⟩ := Stack.findIdx?_eq_some_iff_toList.mp hi
    rw [Nat.add_comm]
    exact .context hx hΓ (eq_of_beq hb) fun c hc hcx => hafter c hc (beq_iff_eq.mpr hcx)

/-- An expression and a term of the same shape, with the same spans, binders and declared types, in
which each variable counts the binders to what its name refers to. -/
inductive Resolves (Γ : Context) : List String → Expr → Term → Prop where
  | var {binders x k s} : Refers Γ binders x k → Resolves Γ binders (.var x s) (.var k s)
  | lam {binders x τ e t s} : Resolves Γ (x :: binders) e t →
      Resolves Γ binders (.lam x τ e s) (.lam x τ t s)
  | app {binders e f t u s} : Resolves Γ binders e t → Resolves Γ binders f u →
      Resolves Γ binders (.app e f s) (.app t u s)

namespace Resolves

variable {Γ : Context} {binders : List String} {e : Expr} {t : Term}

theorem resolveIn (h : Resolves Γ binders e t) : e.resolveIn (Γ.namesUnder binders) = .ok t := by
  induction h with
  | var hx => exact Expr.resolveIn_var_eq_ok_iff.mpr ⟨_, hx.findIdx?, rfl⟩
  | lam _ ih => exact bind_pure_eq_ok_iff.mpr ⟨_, ih, rfl⟩
  | app _ _ ihe ihf => exact bind_bind_pure_eq_ok_iff.mpr ⟨_, _, ihe, ihf, rfl⟩

theorem of_resolveIn (h : e.resolveIn (Γ.namesUnder binders) = .ok t) : Resolves Γ binders e t := by
  induction e generalizing binders t with
  | var x s =>
      obtain ⟨k, hk, rfl⟩ := Expr.resolveIn_var_eq_ok_iff.mp h
      exact .var (.of_findIdx? hk)
  | lam x τ e s ih =>
      obtain ⟨t, ht, rfl⟩ := bind_pure_eq_ok_iff.mp h
      exact .lam (ih ht)
  | app e f s ihe ihf =>
      obtain ⟨t, u, ht, hu, rfl⟩ := bind_bind_pure_eq_ok_iff.mp h
      exact .app (ihe ht) (ihf hu)

end Resolves

/-! ## Occurrences -/

/-- A variable of an expression, with the names that the abstractions around it bind, innermost
first. -/
structure Occurrence where
  binders : List String
  name : String
  span : Span

/-- Something binds the name: an abstraction around it or the context. -/
def Occurrence.IsBound (Γ : Context) (o : Occurrence) : Prop :=
  o.name ∈ o.binders ∨ ∃ b ∈ Γ.toList, b.name = o.name

namespace Expr

/-- The variables of an expression that stands under some abstractions, from the left. -/
def occurrences (binders : List String) : Expr → List Occurrence
  | var x s => [⟨binders, x, s⟩]
  | lam x _ e _ => e.occurrences (x :: binders)
  | app e f _ => e.occurrences binders ++ f.occurrences binders

theorem resolveIn_var_eq_error_iff {scope : Stack String} {x : String} {s : Span}
    {err : UnboundName} :
    (var x s).resolveIn scope = .error err ↔ x ∉ scope.entries ∧ err = ⟨x, s⟩ := by
  rw [← Stack.exists_findIdx?_iff, resolveIn]
  cases scope.findIdx? (· == x) with
  | none => simp [eq_comm]
  | some i => simp

/-- Resolution succeeds if the names that occur free are in scope, and only then. -/
theorem resolveIn_isOk_iff {e : Expr} {scope : Stack String} :
    (∃ t, e.resolveIn scope = .ok t) ↔ ∀ x, e.HasFree x → x ∈ scope.entries := by
  induction e generalizing scope with
  | var x s =>
      simp only [resolveIn_var_eq_ok_iff, HasFree, forall_eq', ← Stack.exists_findIdx?_iff]
      rw [exists_comm]
      simp only [exists_and_left, exists_eq, and_true]
  | lam y τ e s ih =>
      rw [resolveIn, exists_bind_pure_eq_ok_iff, ih]
      simp only [HasFree, Stack.push, List.mem_cons, and_imp]
      refine forall_congr' fun x => ?_
      constructor
      · intro h hyx hx
        exact (h hx).resolve_left (Ne.symm hyx)
      · intro h hx
        by_cases hyx : y = x
        · exact .inl hyx.symm
        · exact .inr (h hyx hx)
  | app e f s ihe ihf =>
      rw [resolveIn, exists_bind_bind_pure_eq_ok_iff, ihe, ihf]
      simp only [HasFree, or_imp]
      exact forall_and.symm

theorem isBound_of_mem_occurrences {Γ : Context} {binders : List String} {e : Expr} {t : Term}
    (h : e.resolveIn (Γ.namesUnder binders) = .ok t) :
    ∀ o ∈ e.occurrences binders, o.IsBound Γ := by
  induction e generalizing binders t with
  | var x s =>
      obtain ⟨k, hk, _⟩ := resolveIn_var_eq_ok_iff.mp h
      rw [occurrences, List.forall_mem_singleton]
      exact Context.mem_namesUnder.mp (Stack.exists_findIdx?_iff.mp ⟨k, hk⟩)
  | lam x τ e s ih =>
      obtain ⟨t, ht, _⟩ := bind_pure_eq_ok_iff.mp h
      exact ih ht
  | app e f s ihe ihf =>
      obtain ⟨t, u, ht, hu, _⟩ := bind_bind_pure_eq_ok_iff.mp h
      rw [occurrences, List.forall_mem_append]
      exact ⟨ihe ht, ihf hu⟩

/-- Resolution fails for the first variable that nothing binds. -/
theorem exists_unbound_of_resolveIn {Γ : Context} {e : Expr} (binders : List String)
    {err : UnboundName} (h : e.resolveIn (Γ.namesUnder binders) = .error err) :
    ∃ o, IsFirstWithout (Occurrence.IsBound Γ) (e.occurrences binders) o ∧
      err = ⟨o.name, o.span⟩ := by
  induction e generalizing binders with
  | var x s =>
      obtain ⟨hx, rfl⟩ := resolveIn_var_eq_error_iff.mp h
      have hunbound : ¬ Occurrence.IsBound Γ ⟨binders, x, s⟩ := mt Context.mem_namesUnder.mpr hx
      exact ⟨_, .singleton hunbound, rfl⟩
  | lam x τ e s ih => exact ih (x :: binders) (bind_pure_eq_error_iff.mp h)
  | app e f s ihe ihf =>
      rcases bind_bind_pure_eq_error_iff.mp h with he | ⟨⟨t, ht⟩, hf⟩
      · obtain ⟨o, ho, herr⟩ := ihe binders he
        exact ⟨o, ho.append_left _, herr⟩
      · obtain ⟨o, ho, herr⟩ := ihf binders hf
        exact ⟨o, ho.append_right (isBound_of_mem_occurrences ht), herr⟩

end Expr

/-- `resolve` succeeds iff `Γ` binds the free names of `e`, and its result is then the one that
`Resolves` relates to `e`: the index of a variable is that of the first binding of its name among
the binders around it, else in `Γ`. Its error is the first of `Expr.occurrences`, from the left,
that is not `IsBound`, by name and span. -/
theorem resolution_finds_innermost (Γ : Context) (e : Expr) :
    ((∃ t, e.resolve Γ = .ok t) ↔ ∀ x, e.HasFree x → ∃ b ∈ Γ.toList, b.name = x) ∧
    (∀ t, e.resolve Γ = .ok t ↔ Resolves Γ [] e t) ∧
    (∀ err, e.resolve Γ = .error err ↔
      ∃ o, IsFirstWithout (Occurrence.IsBound Γ) (e.occurrences []) o ∧
        err = ⟨o.name, o.span⟩) := by
  refine ⟨?_, fun t => ?_, fun err => ?_⟩
  · rw [Expr.resolve, Expr.resolveIn_isOk_iff]
    refine forall_congr' fun x => imp_congr_right fun _ => ?_
    exact Context.mem_namesUnder.trans (or_iff_right List.not_mem_nil)
  · show e.resolveIn (Γ.namesUnder []) = .ok t ↔ _
    exact ⟨Resolves.of_resolveIn, Resolves.resolveIn⟩
  · apply eq_error_iff_isFirstWithout
    · intro t ht
      exact Expr.isBound_of_mem_occurrences ht
    · intro err herr
      exact Expr.exists_unbound_of_resolveIn [] herr
    · rintro o _ _ rfl rfl
      rfl

/-- An abstraction binds its name in its body, and not in the argument beside it. -/
example :
    let lam : Expr := .lam "y" (.bool .nowhere) (.var "y" ⟨5, 6⟩) ⟨1, 6⟩
    let e : Expr := .app lam (.var "y" ⟨8, 9⟩) ⟨0, 9⟩
    e.resolve (.ofList [.untyped "x"]) = .error ⟨"y", ⟨8, 9⟩⟩ := by
  rfl

end Stlc
