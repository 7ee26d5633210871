import Stlc.Program
import Stlc.Proofs.Typing

/-!
# The stages of a program

What it takes for each stage of a program to succeed, and for it to fail, in terms of the stages
before it.
-/

namespace Stlc

namespace Program

/-! ## Success -/

theorem expr_eq_ok_iff {p : Program} {e : Expr} : p.expr = .ok e ↔ Expr.parse p.source = .ok e :=
  mapError_eq_ok_iff

theorem term_eq_ok_iff {p : Program} {t : Term} :
    p.term = .ok t ↔ ∃ e, Expr.parse p.source = .ok e ∧ e.resolve p.context = .ok t := by
  rw [term, bind_eq_ok_iff]
  simp only [expr_eq_ok_iff, mapError_eq_ok_iff]

theorem typed_eq_ok_iff {p : Program} {rule : ApplicationRule} {t : Term} {τ : Ty} :
    p.typed rule = .ok (t, τ) ↔ p.term = .ok t ∧ t.typeOf rule p.context = .ok τ := by
  rw [typed, bind_eq_ok_iff]
  constructor
  · rintro ⟨t', ht, h⟩
    obtain ⟨τ', hτ, h⟩ := bind_eq_ok_iff.mp h
    cases h
    exact ⟨ht, mapError_eq_ok_iff.mp hτ⟩
  · rintro ⟨ht, hτ⟩
    exact ⟨t, ht, bind_eq_ok_iff.mpr ⟨τ, mapError_eq_ok_iff.mpr hτ, rfl⟩⟩

theorem ready_checked_eq_ok_iff {p : Program} {rule : ApplicationRule} {t : Term} {τ? : Option Ty} :
    p.ready ⟨rule, true⟩ = .ok (t, τ?) ↔
      ∃ τ, p.term = .ok t ∧ t.typeOf rule p.context = .ok τ ∧ τ? = some τ := by
  rw [ready, if_pos rfl, map_eq_ok_iff]
  constructor
  · rintro ⟨⟨t', τ⟩, h, heq⟩
    cases heq
    exact ⟨τ, (typed_eq_ok_iff.mp h).1, (typed_eq_ok_iff.mp h).2, rfl⟩
  · rintro ⟨τ, ht, hτ, rfl⟩
    exact ⟨(t, τ), typed_eq_ok_iff.mpr ⟨ht, hτ⟩, rfl⟩

theorem ready_unchecked_eq_ok_iff {p : Program} {rule : ApplicationRule} {t : Term}
    {τ? : Option Ty} : p.ready ⟨rule, false⟩ = .ok (t, τ?) ↔ p.term = .ok t ∧ τ? = none := by
  rw [ready, if_neg Bool.false_ne_true, map_eq_ok_iff]
  constructor
  · rintro ⟨t', h, heq⟩
    cases heq
    exact ⟨h, rfl⟩
  · rintro ⟨h, rfl⟩
    exact ⟨t, h, rfl⟩

/-- Whatever the mode, what is evaluated is what the text denotes. -/
theorem term_of_ready {p : Program} {mode : Mode} {t : Term} {τ? : Option Ty}
    (h : p.ready mode = .ok (t, τ?)) : p.term = .ok t := by
  obtain ⟨rule, checked⟩ := mode
  cases checked with
  | false => exact (ready_unchecked_eq_ok_iff.mp h).1
  | true =>
      obtain ⟨_, ht, _⟩ := ready_checked_eq_ok_iff.mp h
      exact ht

theorem evaluate_eq_ok_iff {p : Program} {mode : Mode} {fuel : Nat} {v : Term} {τ? : Option Ty} :
    p.evaluate mode fuel = some (.ok (v, τ?)) ↔
      ∃ t, p.ready mode = .ok (t, τ?) ∧ t.evaluate fuel = some (.ok v) := by
  rw [evaluate]
  split
  · next e he => simp [he]
  · next t σ? ht =>
      simp only [ht, Except.ok.injEq, Prod.mk.injEq, Option.map_eq_some_iff]
      constructor
      · rintro ⟨r, hr, h⟩
        obtain ⟨v', hv, heq⟩ := map_eq_ok_iff.mp h
        cases heq
        rw [mapError_eq_ok_iff.mp hv] at hr
        exact ⟨t, ⟨rfl, rfl⟩, hr⟩
      · rintro ⟨_, ⟨rfl, rfl⟩, hv⟩
        exact ⟨.ok v, hv, rfl⟩

theorem trace_eq_ok_iff {p : Program} {mode : Mode} {fuel : Nat} {ts : List Term}
    {τ? : Option Ty} : p.trace mode fuel = some (.ok (ts, τ?)) ↔
      ∃ t, p.ready mode = .ok (t, τ?) ∧ t.trace fuel = some (.ok ts) := by
  rw [trace]
  split
  · next e he => simp [he]
  · next t σ? ht =>
      simp only [ht, Except.ok.injEq, Prod.mk.injEq, Option.map_eq_some_iff]
      constructor
      · rintro ⟨r, hr, h⟩
        obtain ⟨us, hus, heq⟩ := map_eq_ok_iff.mp h
        cases heq
        rw [mapError_eq_ok_iff.mp hus] at hr
        exact ⟨t, ⟨rfl, rfl⟩, hr⟩
      · rintro ⟨_, ⟨rfl, rfl⟩, hts⟩
        exact ⟨.ok ts, hts, rfl⟩

/-! ## Failure -/

theorem term_eq_error_iff {p : Program} {f : Failure} :
    p.term = .error f ↔ (∃ err, Expr.parse p.source = .error err ∧ f = .parse err) ∨
      ∃ e err, Expr.parse p.source = .ok e ∧ e.resolve p.context = .error err ∧
        f = .resolve err := by
  rw [term, bind_eq_error_iff]
  simp only [expr, mapError_eq_ok_iff, mapError_eq_error_iff, eq_comm (a := f)]
  refine or_congr Iff.rfl ?_
  constructor
  · rintro ⟨e, he, err, herr, hf⟩
    exact ⟨e, err, he, herr, hf⟩
  · rintro ⟨e, err, he, herr, hf⟩
    exact ⟨e, he, err, herr, hf⟩

theorem typed_eq_error_iff {p : Program} {rule : ApplicationRule} {f : Failure} :
    p.typed rule = .error f ↔ p.term = .error f ∨
      ∃ t err, p.term = .ok t ∧ t.typeOf rule p.context = .error err ∧ f = .typing err := by
  rw [typed, bind_eq_error_iff]
  simp only [bind_pure_eq_error_iff, mapError_eq_error_iff, eq_comm (a := f)]
  refine or_congr Iff.rfl ?_
  constructor
  · rintro ⟨t, ht, err, herr, hf⟩
    exact ⟨t, err, ht, herr, hf⟩
  · rintro ⟨t, err, ht, herr, hf⟩
    exact ⟨t, ht, err, herr, hf⟩

theorem ready_eq_error_iff {p : Program} {mode : Mode} {f : Failure} :
    p.ready mode = .error f ↔ p.term = .error f ∨ mode.checked ∧
      ∃ t err, p.term = .ok t ∧ t.typeOf mode.rule p.context = .error err ∧ f = .typing err := by
  rw [ready]
  split
  · next h => simp [h, map_eq_error_iff, typed_eq_error_iff]
  · next h => simp [h, map_eq_error_iff]

theorem evaluate_eq_error_iff {p : Program} {mode : Mode} {fuel : Nat} {f : Failure} :
    p.evaluate mode fuel = some (.error f) ↔ p.ready mode = .error f ∨
      ∃ t τ? err, p.ready mode = .ok (t, τ?) ∧ t.evaluate fuel = some (.error err) ∧
        f = .evaluation err := by
  rw [evaluate]
  split
  · next e he => simp [he]
  · next t σ? ht =>
      simp only [ht, Option.map_eq_some_iff, map_eq_error_iff, mapError_eq_error_iff]
      constructor
      · rintro ⟨_, hr, err, rfl, rfl⟩
        exact .inr ⟨t, σ?, err, rfl, hr, rfl⟩
      · rintro (h | ⟨_, _, err, heq, hr, rfl⟩)
        · cases h
        · cases heq
          exact ⟨_, hr, err, rfl, rfl⟩

theorem trace_eq_error_iff {p : Program} {mode : Mode} {fuel : Nat} {f : Failure} :
    p.trace mode fuel = some (.error f) ↔ p.evaluate mode fuel = some (.error f) := by
  rw [evaluate_eq_error_iff, trace]
  split
  · next e he => simp [he]
  · next t σ? ht =>
      simp only [ht, Option.map_eq_some_iff, map_eq_error_iff, mapError_eq_error_iff]
      constructor
      · rintro ⟨_, hr, err, rfl, rfl⟩
        exact .inr ⟨t, σ?, err, rfl, Term.trace_eq_error_iff.mp hr, rfl⟩
      · rintro (h | ⟨_, _, err, heq, hr, rfl⟩)
        · cases h
        · cases heq
          exact ⟨_, Term.trace_eq_error_iff.mpr hr, err, rfl, rfl⟩

/-! ## Failures of typing -/

theorem term_ne_typing_error {p : Program} (err : TypingError) :
    p.term ≠ .error (.typing err) := by
  intro h
  rcases term_eq_error_iff.mp h with ⟨_, _, h⟩ | ⟨_, _, _, _, h⟩
  · cases h
  · cases h

theorem typed_eq_typing_error_iff {p : Program} {rule : ApplicationRule} {err : TypingError} :
    p.typed rule = .error (.typing err) ↔
      ∃ t, p.term = .ok t ∧ t.typeOf rule p.context = .error err := by
  rw [typed_eq_error_iff]
  constructor
  · rintro (h | ⟨t, err', ht, herr, h⟩)
    · exact absurd h (term_ne_typing_error err)
    · cases h
      exact ⟨t, ht, herr⟩
  · rintro ⟨t, ht, herr⟩
    exact .inr ⟨t, err, ht, herr, rfl⟩

/-- Evaluation reports an error of typing if typing does. -/
theorem typed_of_evaluate_eq_typing_error {p : Program} {mode : Mode} {fuel : Nat}
    {err : TypingError} (h : p.evaluate mode fuel = some (.error (.typing err))) :
    p.typed mode.rule = .error (.typing err) := by
  rcases evaluate_eq_error_iff.mp h with h | ⟨_, _, _, _, _, h⟩
  · rw [typed_eq_error_iff]
    rcases ready_eq_error_iff.mp h with h | ⟨_, h⟩
    · exact .inl h
    · exact .inr h
  · cases h

/-! ## Programs without a reduct -/

/-- A program that denotes a term without a reduct is evaluated at once. -/
theorem evaluate_of_step_eq_none {p : Program} {mode : Mode} {v : Term} {τ? : Option Ty}
    (h : p.ready mode = .ok (v, τ?)) (hv : v.step = .ok none) {fuel : Nat} (hf : 0 < fuel) :
    p.evaluate mode fuel = some (.ok (v, τ?)) ∧ p.trace mode fuel = some (.ok ([v], τ?)) := by
  obtain ⟨n, rfl⟩ : ∃ n, fuel = n + 1 := ⟨fuel - 1, by omega⟩
  constructor
  · refine evaluate_eq_ok_iff.mpr ⟨v, h, ?_⟩
    rw [Term.evaluate, hv]
  · refine trace_eq_ok_iff.mpr ⟨v, h, ?_⟩
    rw [Term.trace, hv]

end Program

end Stlc
