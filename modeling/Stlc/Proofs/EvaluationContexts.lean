import Stlc.Proofs.Reduction

/-!
# Evaluation contexts

Where in a term the next reduction takes place. An `EvalContext` is a term with a hole in it, and
the way to the hole goes into the head of an application, or into its argument if the head is an
abstraction. A term that is reduced is such a context filled with a `Redex`, in one way only, and
the reduction replaces the redex and nothing else.

`Term.advance` performs a reduction on the whole term: it puts the part that was reduced back in its
place, and says by a flag whether a rule has applied at all. It is `step` with the term in place of
`none` (`Term.advance_eq`). The main statement, `advance_decomposes`, says what the flag means.

## Key lemmas

* `EvalContext.step_fill` — a term in a context is stepped as it is by itself.
* `EvalContext.fill_redex_inj` — there is only one decomposition.
* `Term.reduces_iff_exists_fill` — the relation `Reduces` by contexts.
-/

namespace Stlc

/-! ## Contexts and redexes -/

/-- A term with a hole where the next reduction takes place. -/
inductive EvalContext where
  | hole
  /-- The hole is in the head of an application. -/
  | head (E : EvalContext) (arg : Term) (span : Span)
  /-- The hole is in the argument of an abstraction. -/
  | arg (fn : Term) (isValue : fn.isValue) (E : EvalContext) (span : Span)

def EvalContext.fill : EvalContext → Term → Term
  | hole, t => t
  | head E u s, t => .app (E.fill t) u s
  | arg f _ E s, t => .app f (E.fill t) s

structure Redex where
  name : String
  type : Ty
  body : Term
  fnSpan : Span
  arg : Term
  isValue : arg.isValue
  span : Span

namespace Redex

def toTerm (r : Redex) : Term := .app (.lam r.name r.type r.body r.fnSpan) r.arg r.span

def contract (r : Redex) : Except ShiftError Term := r.body.instantiate r.arg

theorem not_isValue (r : Redex) : ¬ r.toTerm.isValue := nofun

theorem toTerm_inj {r r' : Redex} (h : r.toTerm = r'.toTerm) : r = r' := by
  cases r
  cases r'
  cases h
  rfl

theorem step_toTerm (r : Redex) : r.toTerm.step = r.contract >>= fun v => pure (some v) :=
  Term.step_app_beta r.isValue

end Redex

namespace EvalContext

/-- Only a value fills a context to a value, and only the hole itself. -/
theorem not_isValue_fill (E : EvalContext) {t : Term} (ht : ¬ t.isValue) :
    ¬ (E.fill t).isValue := by
  cases E with
  | hole => exact ht
  | head => exact nofun
  | arg => exact nofun

/-- A term in a context is stepped as it is by itself, and the context stays around it. -/
theorem step_fill (E : EvalContext) {t : Term} (ht : ¬ t.isValue) :
    (E.fill t).step = t.step >>= fun t? => pure (t?.map E.fill) := by
  induction E with
  | hole =>
      show t.step = t.step >>= fun t? => pure (t?.map id)
      simp only [Option.map_id_fun, id_eq, bind_pure]
  | head E u s ih =>
      rw [fill, Term.step_app_head (E.not_isValue_fill ht), ih]
      simp only [bind_assoc, pure_bind, Option.map_map]
      rfl
  | arg f hf E s ih =>
      rw [fill, Term.step_app_arg hf (E.not_isValue_fill ht), ih]
      simp only [bind_assoc, pure_bind, Option.map_map]
      rfl

theorem step_fill_redex (E : EvalContext) (r : Redex) :
    (E.fill r.toTerm).step = r.contract >>= fun v => pure (some (E.fill v)) := by
  rw [E.step_fill r.not_isValue, r.step_toTerm, bind_assoc]
  rfl

theorem not_isValue_fill_redex (E : EvalContext) (r : Redex) : ¬ (E.fill r.toTerm).isValue :=
  E.not_isValue_fill r.not_isValue

theorem scoped_of_fill {E : EvalContext} {t : Term} {n : Nat} (h : (E.fill t).Scoped n) :
    t.Scoped n := by
  induction E with
  | hole => exact h
  | head E u s ih => exact ih ((Term.scoped_app ..).mp h).1
  | arg f hf E s ih => exact ih ((Term.scoped_app ..).mp h).2

theorem depth_le_fill (E : EvalContext) (t : Term) : t.depth ≤ (E.fill t).depth := by
  induction E with
  | hole => exact Nat.le_refl _
  | head E u s ih => exact ih.trans (Nat.le_max_left ..)
  | arg f hf E s ih => exact ih.trans (Nat.le_max_right ..)

/-- There is only one decomposition into a context and a redex: the parts of a redex are values, and
a context that is filled with a redex is none. -/
theorem fill_redex_inj {E E' : EvalContext} {r r' : Redex}
    (h : E.fill r.toTerm = E'.fill r'.toTerm) : E = E' ∧ r = r' := by
  -- Where the two ways part, one of them goes into a part that the other takes for a value.
  induction E generalizing E' with
  | hole =>
      cases E' with
      | hole => exact ⟨rfl, Redex.toTerm_inj h⟩
      | head E' u s =>
          simp only [fill, Redex.toTerm, Term.app.injEq] at h
          exact absurd (h.1 ▸ rfl) (E'.not_isValue_fill_redex r')
      | arg f hf E' s =>
          simp only [fill, Redex.toTerm, Term.app.injEq] at h
          exact absurd (h.2.1 ▸ r.isValue) (E'.not_isValue_fill_redex r')
  | head E u s ih =>
      cases E' with
      | hole =>
          simp only [fill, Redex.toTerm, Term.app.injEq] at h
          exact absurd (h.1 ▸ rfl) (E.not_isValue_fill_redex r)
      | head E' u' s' =>
          simp only [fill, Term.app.injEq] at h
          obtain ⟨h, rfl, rfl⟩ := h
          obtain ⟨rfl, rfl⟩ := ih h
          exact ⟨rfl, rfl⟩
      | arg f hf E' s' =>
          simp only [fill, Term.app.injEq] at h
          exact absurd (h.1 ▸ hf) (E.not_isValue_fill_redex r)
  | arg f hf E s ih =>
      cases E' with
      | hole =>
          simp only [fill, Redex.toTerm, Term.app.injEq] at h
          exact absurd (h.2.1 ▸ r'.isValue) (E.not_isValue_fill_redex r)
      | head E' u' s' =>
          simp only [fill, Term.app.injEq] at h
          exact absurd (h.1 ▸ hf) (E'.not_isValue_fill_redex r')
      | arg f' hf' E' s' =>
          simp only [fill, Term.app.injEq] at h
          obtain ⟨rfl, h, rfl⟩ := h
          obtain ⟨rfl, rfl⟩ := ih h
          exact ⟨rfl, rfl⟩

end EvalContext

namespace Term

/-- A reduction takes place at a redex in a context, and changes nothing around it. -/
theorem reduces_iff_exists_fill {t u : Term} :
    t.Reduces u ↔ ∃ (E : EvalContext) (r : Redex),
      t = E.fill r.toTerm ∧ u = E.fill (r.body.contract r.arg) := by
  constructor
  · intro h
    induction h with
    | @beta x τ b s' w s hw => exact ⟨.hole, ⟨x, τ, b, s', w, hw, s⟩, rfl, rfl⟩
    | @head t t' u s _ ih =>
        obtain ⟨E, r, rfl, rfl⟩ := ih
        exact ⟨.head E u s, r, rfl, rfl⟩
    | @arg t u u' s ht _ ih =>
        obtain ⟨E, r, rfl, rfl⟩ := ih
        exact ⟨.arg t ht E s, r, rfl, rfl⟩
  · rintro ⟨E, r, rfl, rfl⟩
    induction E with
    | hole => exact .beta r.isValue
    | head E u s ih => exact .head ih
    | arg f hf E s ih => exact .arg hf ih

/-! ## Reduction of the whole term -/

/-- One reduction, with the part that was reduced put back in its place. The flag tells whether a
rule has applied. -/
def advance : Term → Except ShiftError (Bool × Term)
  | app fn arg s =>
    match fn with
    | lam x τ body s' =>
      if arg.isValue then return (true, ← body.instantiate arg)
      else return (← arg.advance).map id fun arg => app (lam x τ body s') arg s
    | fn => return (← fn.advance).map id fun fn => app fn arg s
  | t => .ok (false, t)

theorem advance_app_head {t u : Term} {s : Span} (ht : ¬ t.isValue) :
    (app t u s).advance = t.advance >>= fun p => pure (p.map id fun t => app t u s) := by
  cases t with
  | var i s' => rfl
  | lam x τ b s' => exact absurd rfl ht
  | app t₁ t₂ s' => rfl

theorem advance_app_arg {t u : Term} {s : Span} (ht : t.isValue) (hu : ¬ u.isValue) :
    (app t u s).advance = u.advance >>= fun p => pure (p.map id fun u => app t u s) := by
  obtain ⟨x, τ, b, s', rfl⟩ := isValue_iff.mp ht
  rw [advance, if_neg hu]

/-- Where no rule applies, the term is put together again as it was. -/
theorem advance_eq (t : Term) : t.advance = t.step.map fun t? => (t?.isSome, t?.getD t) := by
  induction t with
  | var i s => rfl
  | lam x τ t s ih => rfl
  | app t u s iht ihu =>
      by_cases ht : t.isValue
      · by_cases hu : u.isValue
        · obtain ⟨x, τ, b, s', rfl⟩ := isValue_iff.mp ht
          rw [step_app_beta hu, advance, if_pos hu]
          cases b.instantiate u <;> rfl
        · rw [advance_app_arg ht hu, step_app_arg ht hu, ihu]
          rcases u.step with e | _ | u' <;> rfl
      · rw [advance_app_head ht, step_app_head ht, iht]
        rcases t.step with e | _ | t' <;> rfl

theorem advance_eq_ok_iff {t u : Term} {flag : Bool} :
    t.advance = .ok (flag, u) ↔
      flag = false ∧ u = t ∧ t.step = .ok none ∨ flag = true ∧ t.step = .ok (some u) := by
  rw [advance_eq]
  rcases t.step with e | _ | v
  · simp [Except.map]
  · simp [Except.map, eq_comm]
  · simp [Except.map, eq_comm]

/-! ## The three answers -/

theorem advance_true_iff {t u : Term} :
    t.advance = .ok (true, u) ↔ ∃ (E : EvalContext) (r : Redex) (v : Term),
      t = E.fill r.toTerm ∧ r.contract = .ok v ∧ u = E.fill v := by
  rw [advance_eq_ok_iff]
  constructor
  · rintro (⟨hflag, _⟩ | ⟨_, hs⟩)
    · cases hflag
    · obtain ⟨E, r, rfl, _⟩ := reduces_iff_exists_fill.mp (.of_step hs)
      rw [E.step_fill_redex] at hs
      obtain ⟨v, hv, heq⟩ := bind_pure_eq_ok_iff.mp hs
      cases heq
      exact ⟨E, r, v, rfl, hv, rfl⟩
  · rintro ⟨E, r, v, rfl, hv, rfl⟩
    refine .inr ⟨rfl, ?_⟩
    rw [E.step_fill_redex, hv]
    rfl

theorem advance_false_iff {t u : Term} :
    t.advance = .ok (false, u) ↔ (t.isValue ∨ t.Stuck) ∧ u = t := by
  rw [advance_eq_ok_iff, ← step_eq_none_iff]
  simp [and_comm]

theorem advance_error_iff {t : Term} {e : ShiftError} :
    t.advance = .error e ↔ ∃ (E : EvalContext) (r : Redex),
      t = E.fill r.toTerm ∧ r.contract = .error e := by
  rw [advance_eq, map_eq_error_iff]
  constructor
  · intro hs
    -- The term is neither a value nor stuck, since these are stepped without an error.
    have hend : ¬ (t.isValue ∨ t.Stuck) := by
      intro hend
      rw [step_eq_none_iff.mpr hend] at hs
      cases hs
    obtain ⟨u, hu⟩ := (or_assoc.mpr t.value_or_stuck_or_reduces).resolve_left hend
    obtain ⟨E, r, rfl, _⟩ := reduces_iff_exists_fill.mp hu
    rw [E.step_fill_redex] at hs
    exact ⟨E, r, rfl, bind_pure_eq_error_iff.mp hs⟩
  · rintro ⟨E, r, rfl, hr⟩
    rw [E.step_fill_redex, hr]
    rfl

end Term

/-- **Unique decomposition.** `Term.advance` sets its flag iff the term is `E.fill r.toTerm` for an
evaluation context `E` and a redex `r`, of which there is at most one pair; it then replaces `r` by
`r.contract`, and fails iff `contract` does. With the flag unset the term is returned as it is, and
it is a value or `Stuck`. Closed terms are never stuck, so there the flag decides `isValue`, and
`evaluate` gives back its own results for any fuel but zero. -/
theorem advance_decomposes :
    (∀ t : Term, t.advance = t.step.map fun t? => (t?.isSome, t?.getD t)) ∧
    (∀ (t u : Term) (flag : Bool), t.advance = .ok (flag, u) →
      (flag = true ↔ ∃ (E : EvalContext) (r : Redex), t = E.fill r.toTerm) ∧
      (∀ (E : EvalContext) (r : Redex), t = E.fill r.toTerm →
        ∃ v, r.contract = .ok v ∧ u = E.fill v) ∧
      (flag = false ↔ t.isValue ∨ t.Stuck) ∧
      (flag = false → u = t)) ∧
    (∀ (E E' : EvalContext) (r r' : Redex), E.fill r.toTerm = E'.fill r'.toTerm →
      E = E' ∧ r = r') ∧
    (∀ (t : Term) (e : ShiftError), t.advance = .error e ↔
      ∃ (E : EvalContext) (r : Redex), t = E.fill r.toTerm ∧ r.contract = .error e) ∧
    (∀ t u : Term, t.Scoped 0 → t.advance = .ok (false, u) → t.isValue) ∧
    (∀ (t v : Term) (fuel fuel' : Nat), t.evaluate fuel = some (.ok v) → 0 < fuel' →
      v.evaluate fuel' = some (.ok v)) := by
  refine ⟨Term.advance_eq, ?_, fun _ _ _ _ => EvalContext.fill_redex_inj,
    fun _ _ => Term.advance_error_iff, ?_, ?_⟩
  · intro t u flag h
    cases flag with
    | false =>
        obtain ⟨hend, rfl⟩ := Term.advance_false_iff.mp h
        have hno : ∀ (E : EvalContext) (r : Redex), u ≠ E.fill r.toTerm := by
          rintro E r rfl
          cases hr : r.contract with
          | ok v =>
              rw [Term.advance_true_iff.mpr ⟨E, r, v, rfl, hr, rfl⟩] at h
              cases h
          | error e =>
              rw [Term.advance_error_iff.mpr ⟨E, r, rfl, hr⟩] at h
              cases h
        refine ⟨⟨nofun, ?_⟩, fun E r hr => absurd hr (hno E r), iff_of_true rfl hend, fun _ => rfl⟩
        rintro ⟨E, r, hr⟩
        exact absurd hr (hno E r)
    | true =>
        obtain ⟨E, r, v, rfl, hv, rfl⟩ := Term.advance_true_iff.mp h
        refine ⟨iff_of_true rfl ⟨E, r, rfl⟩, ?_, ⟨nofun, ?_⟩, nofun⟩
        · intro E' r' hr
          obtain ⟨rfl, rfl⟩ := EvalContext.fill_redex_inj hr
          exact ⟨v, hv, rfl⟩
        · intro hend
          rw [Term.advance_false_iff.mpr ⟨hend, rfl⟩] at h
          cases h
  · intro t u ht h
    exact (Term.advance_false_iff.mp h).1.resolve_right ht.not_stuck
  · intro t v fuel fuel' h hfuel
    obtain ⟨_, _, _, hv⟩ := Term.evaluate_eq_ok_iff.mp h
    exact Term.evaluate_eq_ok_iff.mpr ⟨0, hfuel, .refl, hv⟩

/-- The redex is the head of an application that is the argument of an abstraction. Once it is
reduced, that application is stuck at its own argument. -/
theorem advance_decomposes_under_abstraction :
    let id : String → Term := fun x => .lam x (.bool .nowhere) (.var 0 .nowhere) .nowhere
    let t : Term := .app (id "x") (.app (.app (id "y") (id "z") ⟨7, 10⟩) (.var 3 ⟨11, 12⟩) ⟨7, 12⟩)
      ⟨0, 12⟩
    let u : Term := .app (id "x") (.app (id "z") (.var 3 ⟨11, 12⟩) ⟨7, 12⟩) ⟨0, 12⟩
    t.advance = .ok (true, u) ∧ (∃ (E : EvalContext) (r : Redex), t = E.fill r.toTerm) ∧
      u.advance = .ok (false, u) ∧ (u.isValue ∨ u.Stuck) ∧
      u.evaluate 1 = some (.ok u) ∧ (id "x").isValue := by
  intro id t u
  obtain ⟨_, hadvance, _, _, hclosed, hevaluate⟩ := advance_decomposes
  have ht : t.advance = .ok (true, u) := rfl
  have hu : u.advance = .ok (false, u) := rfl
  have hid : (id "x").Scoped 0 := by simp [id]
  exact ⟨ht, (hadvance t u true ht).1.mp rfl, hu, (hadvance u u false hu).2.2.1.mp rfl,
    hevaluate t u 2 1 rfl Nat.one_pos, hclosed (id "x") (id "x") hid rfl⟩

end Stlc
