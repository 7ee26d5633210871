import Stlc.Proofs.Program
import Stlc.Proofs.Resolution

/-!
# Internal errors

Some errors are there for terms that no text denotes: a variable that counts past the context, a
shift that leaves no index, a value that is applied and is no abstraction. A term that is resolved
has its free variables in the context, a reduction keeps them there, and from that it follows that
none of these errors is ever reported on a program, however it is typed and however far it is
evaluated.

## Key lemmas

* `Term.stepByTests_eq` — applying what passes for a value, one always finds an abstraction.
* `Term.Scoped.typeOf_ne_unboundIndex` — typing finds the declaration of every variable.
* `Program.term_scoped` — the invariant, where it begins; `Term.Run.scoped` keeps it.
-/

namespace Stlc

/-! ## Applying values -/

/-- Why an application whose two parts are values cannot be reduced. -/
inductive RedexError where
  /-- The head has passed for a value, but has no body. -/
  | notAnAbstraction (head : Term)
  | shift (error : ShiftError)

namespace Term

/-- One reduction, directed by tests for values alone. Whether the head is an abstraction is asked
last. -/
def stepByTests : Term → Except RedexError (Option Term)
  | app t u s =>
    if !t.isValue then return (← t.stepByTests).map fun t => app t u s
    else if !u.isValue then return (← u.stepByTests).map fun u => app t u s
    else match t.body? with
      | none => throw (.notAnAbstraction t)
      | some b => return some (← (b.instantiate u).mapError .shift)
  | _ => .ok none

/-- The last question is never answered in the negative. -/
theorem stepByTests_eq (t : Term) : t.stepByTests = t.step.mapError .shift := by
  induction t with
  | var i s => rfl
  | lam x τ t s ih => rfl
  | app t u s iht ihu =>
      rw [stepByTests]
      by_cases ht : t.isValue
      · by_cases hu : u.isValue
        · obtain ⟨x, τ, b, s', rfl⟩ := isValue_iff.mp ht
          rw [step_app_beta hu, mapError_bind, hu]
          rfl
        · rw [step_app_arg ht hu, mapError_bind, ← ihu]
          simp [ht, hu, Except.mapError, pure, Except.pure]
      · rw [step_app_head ht, mapError_bind, ← iht]
        simp [ht, Except.mapError, pure, Except.pure]

/-! ## Typing in scope -/

theorem Scoped.typeOf_ne_unboundIndex {t : Term} {Γ : Context} (h : t.Scoped Γ.size)
    (rule : ApplicationRule) (i depth : Nat) (s : Span) :
    t.typeOf rule Γ ≠ .error (.unboundIndex i depth s) := by
  induction t generalizing Γ with
  | var j s' =>
      intro herr
      rw [typeOf, Context.typeOf] at herr
      have hj : (Γ.get? j).isSome := (Γ.get?_isSome_iff j).mpr ((scoped_var ..).mp h)
      split at herr
      · next hnone =>
          rw [hnone] at hj
          cases hj
      · cases herr
      · cases herr
  | lam x τ t s' ih =>
      intro herr
      have hbody : t.Scoped (Γ.push (.typed x τ)).size := (scoped_lam ..).mp h
      exact ih hbody (bind_pure_eq_error_iff.mp herr)
  | app t u s' iht ihu =>
      intro herr
      obtain ⟨ht, hu⟩ := (scoped_app ..).mp h
      -- Where both parts are typed, what is left complains about types only.
      rcases typeOf_app_eq_error herr with herr | ⟨τ₁, _, herr | ⟨τ₂, _, herr | herr⟩⟩
      · exact iht ht herr
      · exact ihu hu herr
      · obtain ⟨_, _, herr⟩ := herr
        cases herr
      · obtain ⟨_, _, _, _, _, herr⟩ := herr
        cases herr

end Term

/-! ## Programs -/

namespace Program

/-- Every free variable of what a text denotes is declared. -/
theorem term_scoped {p : Program} {t : Term} (h : p.term = .ok t) : t.Scoped p.context.size := by
  obtain ⟨e, _, ht⟩ := term_eq_ok_iff.mp h
  have hscoped := Expr.scoped_of_resolveIn ht
  rwa [Context.names, Stack.size_map] at hscoped

theorem typed_ne_unboundIndex (p : Program) (rule : ApplicationRule) (i depth : Nat) (s : Span) :
    p.typed rule ≠ .error (.typing (.unboundIndex i depth s)) := by
  intro h
  obtain ⟨t, ht, herr⟩ := typed_eq_typing_error_iff.mp h
  exact (term_scoped ht).typeOf_ne_unboundIndex rule i depth s herr

theorem evaluate_ne_unboundIndex (p : Program) (mode : Mode) (fuel i depth : Nat) (s : Span) :
    p.evaluate mode fuel ≠ some (.error (.typing (.unboundIndex i depth s))) := by
  intro h
  exact typed_ne_unboundIndex p mode.rule i depth s (typed_of_evaluate_eq_typing_error h)

theorem ready_ne_evaluation_error {p : Program} {mode : Mode} (err : ShiftError) :
    p.ready mode ≠ .error (.evaluation err) := by
  intro h
  rcases ready_eq_error_iff.mp h with h | ⟨_, _, _, _, _, h⟩
  · rcases term_eq_error_iff.mp h with ⟨_, _, h⟩ | ⟨_, _, _, _, h⟩
    · cases h
    · cases h
  · cases h

/-- Evaluation fails where a step of the term does that the text denotes. -/
theorem run_of_evaluate_eq_error {p : Program} {mode : Mode} {fuel : Nat} {err : ShiftError}
    (h : p.evaluate mode fuel = some (.error (.evaluation err))) :
    ∃ t n u, p.term = .ok t ∧ n < fuel ∧ Term.Run n t u ∧ u.step = .error err := by
  rcases evaluate_eq_error_iff.mp h with h | ⟨t, τ?, _, ht, herr, h⟩
  · exact absurd h (ready_ne_evaluation_error err)
  · cases h
    obtain ⟨n, u, hn, hr, hu⟩ := Term.run_of_evaluate_eq_error herr
    exact ⟨t, n, u, term_of_ready ht, hn, hr, hu⟩

end Program

/-- What `Program.term` gives is `Scoped` in its context, and `step` keeps it so, since a step has
no free index that the term did not have. Under `indexLimit` a `Scoped` term makes neither `step`
nor `stepByTests` fail, so `evaluate`, `trace` and `Reduction.take` give no `.evaluation` error as
long as the first `k` terms of the run stay below it. `unboundIndex` needs no bound: `typeOf`
reports it for terms that are not `Scoped`, and there are none in a program. -/
theorem internal_errors_unreachable :
    (∀ (p : Program) (t : Term), p.term = .ok t → t.Scoped p.context.size) ∧
    (∀ (t : Term) (n : Nat), t.Scoped n → n + t.lams < indexLimit →
      ∃ r, t.step = .ok r ∧ t.stepByTests = .ok r ∧
        ∀ u j, r = some u → u.HasFree j → t.HasFree j) ∧
    (∀ (p : Program) (t : Term) (k : Nat), p.term = .ok t →
      (∀ n u, n < k → Term.Run n t u → p.context.size + u.lams < indexLimit) →
        (∀ n u, n < k → Term.Run n t u → u.Scoped p.context.size ∧ ∃ r, u.step = .ok r) ∧
        (∀ mode err, p.evaluate mode k ≠ some (.error (.evaluation err)) ∧
          p.trace mode k ≠ some (.error (.evaluation err))) ∧
        ∀ err, .error err ∉ (Reduction.ofTerm t).take k) ∧
    (∀ (p : Program) (i depth : Nat) (s : Span),
      (∀ rule, p.typed rule ≠ .error (.typing (.unboundIndex i depth s))) ∧
      ∀ mode fuel, p.evaluate mode fuel ≠ some (.error (.typing (.unboundIndex i depth s))) ∧
        p.trace mode fuel ≠ some (.error (.typing (.unboundIndex i depth s)))) := by
  refine ⟨fun p t => Program.term_scoped, ?_, ?_, ?_⟩
  · intro t n ht hn
    obtain ⟨r, hr⟩ := Term.step_isOk ht hn
    refine ⟨r, hr, ?_, ?_⟩
    · rw [Term.stepByTests_eq, hr]
      rfl
    · rintro u j rfl hj
      exact (Term.Reduces.of_step hr).hasFree hj
  · intro p t k ht hlams
    have hsteps : ∀ n u, n < k → Term.Run n t u →
        u.Scoped p.context.size ∧ ∃ r, u.step = .ok r := by
      intro n u hn hr
      have hu := hr.scoped (Program.term_scoped ht)
      exact ⟨hu, Term.step_isOk hu (hlams n u hn hr)⟩
    have hno : ∀ n u err, n < k → Term.Run n t u → u.step ≠ .error err := by
      intro n u err hn hr herr
      obtain ⟨_, r, hok⟩ := hsteps n u hn hr
      rw [herr] at hok
      cases hok
    have heval : ∀ mode err, p.evaluate mode k ≠ some (.error (.evaluation err)) := by
      intro mode err h
      obtain ⟨t', n, u, ht', hn, hr, hu⟩ := Program.run_of_evaluate_eq_error h
      rw [ht] at ht'
      cases ht'
      exact hno n u err hn hr hu
    refine ⟨hsteps, ?_, ?_⟩
    · intro mode err
      exact ⟨heval mode err, fun h => heval mode err (Program.trace_eq_error_iff.mp h)⟩
    · intro err h
      obtain ⟨n, u, hn, hr, hu⟩ := Term.run_of_error_mem_take h
      exact hno n u err hn hr hu
  · intro p i depth s
    refine ⟨fun rule => Program.typed_ne_unboundIndex p rule i depth s, ?_⟩
    intro mode fuel
    have heval := Program.evaluate_ne_unboundIndex p mode fuel i depth s
    exact ⟨heval, fun h => heval (Program.trace_eq_error_iff.mp h)⟩

/-- An argument with a free variable is moved under a binder, by a program without a type, and the
first two terms of the run have indices enough. -/
theorem internal_errors_unreachable_moved_argument :
    let Γ : Context := .ofList [.untyped "f", .untyped "g"]
    let p : Program := ⟨"(\\x:Bool. \\y:Bool. x x) (\\z:Bool. f z)", Γ⟩
    let arg : Nat → Term := fun n =>
      .lam "z" (.bool ⟨28, 32⟩) (.app (.var (n + 2) ⟨34, 35⟩) (.var 0 ⟨36, 37⟩) ⟨34, 37⟩) ⟨25, 37⟩
    let body : Term := .lam "y" (.bool ⟨13, 17⟩)
      (.app (.var 1 ⟨19, 20⟩) (.var 1 ⟨21, 22⟩) ⟨19, 22⟩) ⟨10, 22⟩
    let t : Term := .app (.lam "x" (.bool ⟨4, 8⟩) body ⟨1, 22⟩) (arg 0) ⟨0, 38⟩
    let u : Term := .lam "y" (.bool ⟨13, 17⟩) (.app (arg 1) (arg 1) ⟨19, 22⟩) ⟨10, 22⟩
    p.term = .ok t ∧ t.Scoped 2 ∧ t.step = .ok (some u) ∧ u.Scoped 2 ∧
      ∀ mode err, p.evaluate mode 2 ≠ some (.error (.evaluation err)) := by
  intro Γ p arg body t u
  have ht : p.term = .ok t := by cbv
  have hstep : t.step = .ok (some u) := by cbv
  have hlams : ∀ n v, n < 2 → Term.Run n t v → p.context.size + v.lams < indexLimit := by
    intro n v hn hr
    cases hr with
    | refl => decide
    | cons hs hr =>
        rw [hstep] at hs
        cases hs
        cases hr with
        | refl => decide
        | cons => omega
  obtain ⟨hsteps, heval, _⟩ := internal_errors_unreachable.2.2.1 p t 2 ht hlams
  have hrun : Term.Run 1 t u := .cons hstep .refl
  exact ⟨ht, internal_errors_unreachable.1 p t ht, hstep, (hsteps 1 u (by omega) hrun).1,
    fun mode err => (heval mode err).1⟩

end Stlc
