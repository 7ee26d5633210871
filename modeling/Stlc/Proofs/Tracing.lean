import Stlc.Proofs.Program

/-!
# Results, traces and sequences on demand

Three things iterate `step`. The loop `Term.evaluate` keeps the last term only, `Term.trace` keeps
them all, and a `Reduction` is asked for one term after the other. Here they are compared: at every
step they do the same, and they end together, in whichever way.

## Key lemmas

* `Term.evaluate_eq_ok_iff_trace`, `Program.evaluate_eq_ok_iff_trace` — the result is the end of the
  trace.
* `Term.exists_cons_of_trace`, `Term.isChain_of_trace` — the trace is made of steps from the start.
* `Reduction.item_ofTerm_eq_ok_iff`, `Reduction.item_eq_none` — the answers of a sequence, one by
  one, and what comes after its end.
* `Term.take_of_trace`, `Term.getLast?_take_of_evaluate` — the answers of a sequence as a list.
-/

namespace Stlc

namespace Term

/-! ## Traces -/

def StepsTo (t u : Term) : Prop := t.step = .ok (some u)

theorem exists_cons_of_trace {fuel : Nat} {t : Term} {ts : List Term}
    (h : t.trace fuel = some (.ok ts)) : ∃ us, ts = t :: us := by
  cases fuel with
  | zero => cases h
  | succ fuel =>
      rcases trace_succ_eq_ok_iff.mp h with ⟨_, rfl⟩ | ⟨_, us, _, _, rfl⟩
      · exact ⟨[], rfl⟩
      · exact ⟨us, rfl⟩

theorem isChain_of_trace {fuel : Nat} {t : Term} {ts : List Term}
    (h : t.trace fuel = some (.ok ts)) : ts.IsChain StepsTo := by
  induction fuel generalizing t ts with
  | zero => cases h
  | succ fuel ih =>
      rcases trace_succ_eq_ok_iff.mp h with ⟨_, rfl⟩ | ⟨u, us, hs, hus, rfl⟩
      · exact List.isChain_singleton t
      · have hchain := ih hus
        obtain ⟨us, rfl⟩ := exists_cons_of_trace hus
        exact List.isChain_cons_cons.mpr ⟨hs, hchain⟩

/-- The loop that keeps one term ends with the last of those that are kept by the other. -/
theorem evaluate_eq_ok_iff_trace {fuel : Nat} {t v : Term} :
    t.evaluate fuel = some (.ok v) ↔
      ∃ ts, t.trace fuel = some (.ok ts) ∧ ts.getLast? = some v := by
  induction fuel generalizing t with
  | zero => simp [evaluate, trace]
  | succ fuel ih =>
      rw [evaluate]
      simp only [trace_succ_eq_ok_iff]
      rcases hs : t.step with e | _ | u
      · simp
      · simp
      · simp only [ih, reduceCtorEq, Except.ok.injEq, false_and, Option.some.injEq, false_or]
        constructor
        · rintro ⟨us, hus, hlast⟩
          refine ⟨t :: us, ⟨u, us, rfl, hus, rfl⟩, ?_⟩
          obtain ⟨us, rfl⟩ := exists_cons_of_trace hus
          exact hlast
        · rintro ⟨_, ⟨_, us, rfl, hus, rfl⟩, hlast⟩
          refine ⟨us, hus, ?_⟩
          obtain ⟨us, rfl⟩ := exists_cons_of_trace hus
          exact hlast

end Term

/-! ## Sequences on demand -/

namespace Reduction

/-- What the call `i` of `next` answers; the first call has number `0`. -/
def item (r : Reduction) (i : Nat) : Option (Except ShiftError Term) :=
  ((·.next.2)^[i] r).next.1

theorem item_zero (r : Reduction) : r.item 0 = r.next.1 := rfl

theorem item_succ (r : Reduction) (i : Nat) : r.item (i + 1) = r.next.2.item i := rfl

theorem item_none (i : Nat) : (⟨none⟩ : Reduction).item i = none := by
  induction i with
  | zero => rfl
  | succ i ih => exact ih

theorem next_of_step {t u : Term} (h : t.step = .ok (some u)) :
    (ofTerm t).next = (some (.ok u), ofTerm u) := by
  simp [ofTerm, next, h]

theorem next_of_error {t : Term} {e : ShiftError} (h : t.step = .error e) :
    (ofTerm t).next = (some (.error e), ⟨none⟩) := by
  simp [ofTerm, next, h]

theorem next_of_step_eq_none {t : Term} (h : t.step = .ok none) :
    (ofTerm t).next = (none, ⟨none⟩) := by
  simp [ofTerm, next, h]

/-- A sequence that has not answered with a term has ended. -/
theorem next_eq_none {r : Reduction} (h : ∀ u, r.next.1 ≠ some (.ok u)) : r.next.2 = ⟨none⟩ := by
  obtain ⟨_ | t⟩ := r
  · rfl
  · rcases hs : t.step with e | _ | u
    · exact congrArg Prod.snd (next_of_error hs)
    · exact congrArg Prod.snd (next_of_step_eq_none hs)
    · exact absurd (congrArg Prod.fst (next_of_step hs)) (h u)

/-- There is nothing after an end or an error. -/
theorem item_eq_none {r : Reduction} {i j : Nat} (h : ∀ u, r.item i ≠ some (.ok u)) (hij : i < j) :
    r.item j = none := by
  obtain ⟨j, rfl⟩ : ∃ k, j = k + 1 := ⟨j - 1, by omega⟩
  rw [item_succ]
  induction i generalizing r j with
  | zero =>
      have hend : r.next.2 = ⟨none⟩ := next_eq_none h
      rw [hend, item_none]
  | succ i ih =>
      obtain ⟨j, rfl⟩ : ∃ k, j = k + 1 := ⟨j - 1, by omega⟩
      exact ih h j (by omega)

/-- The terms in a sequence are those that a run reaches, in order. -/
theorem item_ofTerm_eq_ok_iff {t u : Term} {i : Nat} :
    (ofTerm t).item i = some (.ok u) ↔ Term.Run (i + 1) t u := by
  induction i generalizing t with
  | zero =>
      rw [item_zero, Term.run_succ_iff]
      rcases hs : t.step with e | _ | w
      · simp [next_of_error hs]
      · simp [next_of_step_eq_none hs]
      · simp [next_of_step hs, Term.run_zero_iff]
  | succ i ih =>
      rw [item_succ, Term.run_succ_iff]
      rcases hs : t.step with e | _ | w
      · simp [next_of_error hs, item_none]
      · simp [next_of_step_eq_none hs, item_none]
      · simp [next_of_step hs, ih]

/-- An error in a sequence is that of the step which would come next. -/
theorem item_ofTerm_eq_error_iff {t : Term} {e : ShiftError} {i : Nat} :
    (ofTerm t).item i = some (.error e) ↔ ∃ u, Term.Run i t u ∧ u.step = .error e := by
  induction i generalizing t with
  | zero =>
      rw [item_zero]
      rcases hs : t.step with e' | _ | w
      · simp [next_of_error hs, Term.run_zero_iff, hs]
      · simp [next_of_step_eq_none hs, Term.run_zero_iff, hs]
      · simp [next_of_step hs, Term.run_zero_iff, hs]
  | succ i ih =>
      rw [item_succ]
      simp only [Term.run_succ_iff]
      rcases hs : t.step with e' | _ | w
      · simp [next_of_error hs, item_none]
      · simp [next_of_step_eq_none hs, item_none]
      · simp [next_of_step hs, ih]

end Reduction

/-! ## Sequences as lists -/

namespace Term

/-- A trace is its first term and then the whole sequence. -/
theorem take_of_trace {fuel : Nat} {t : Term} {ts : List Term}
    (h : t.trace fuel = some (.ok ts)) {m : Nat} (hm : fuel ≤ m) :
    (Reduction.ofTerm t).take m = ts.tail.map .ok := by
  induction fuel generalizing t ts m with
  | zero => cases h
  | succ fuel ih =>
      obtain ⟨m, rfl⟩ : ∃ k, m = k + 1 := ⟨m - 1, by omega⟩
      rcases trace_succ_eq_ok_iff.mp h with ⟨hs, rfl⟩ | ⟨u, us, hs, hus, rfl⟩
      · rw [take_of_step_eq_none hs]
        rfl
      · rw [take_of_step hs, ih hus (by omega)]
        obtain ⟨us, rfl⟩ := exists_cons_of_trace hus
        rfl

/-- The loop ends as the sequence does: with its last item, or with the first term if there is
none. -/
theorem getLast?_take_of_evaluate {fuel : Nat} {t : Term} {r : Except ShiftError Term}
    (h : t.evaluate fuel = some r) {m : Nat} (hm : fuel ≤ m) :
    ((Reduction.ofTerm t).take m).getLast?.getD (.ok t) = r := by
  induction fuel generalizing t m with
  | zero => cases h
  | succ fuel ih =>
      obtain ⟨m, rfl⟩ : ∃ k, m = k + 1 := ⟨m - 1, by omega⟩
      rw [evaluate] at h
      split at h
      · next e hs =>
          cases h
          rw [take_of_error hs]
          rfl
      · next hs =>
          cases h
          rw [take_of_step_eq_none hs]
          rfl
      · next u hs =>
          rw [take_of_step hs, List.getLast?_cons]
          exact ih h (by omega)

end Term

/-! ## Programs -/

namespace Program

theorem evaluate_eq_ok_iff_trace {p : Program} {mode : Mode} {fuel : Nat} {v : Term}
    {τ? : Option Ty} : p.evaluate mode fuel = some (.ok (v, τ?)) ↔
      ∃ ts, p.trace mode fuel = some (.ok (ts, τ?)) ∧ ts.getLast? = some v := by
  simp only [evaluate_eq_ok_iff, trace_eq_ok_iff, Term.evaluate_eq_ok_iff_trace]
  constructor
  · rintro ⟨t, ht, ts, hts, hlast⟩
    exact ⟨ts, ⟨t, ht, hts⟩, hlast⟩
  · rintro ⟨ts, ⟨t, ht, hts⟩, hlast⟩
    exact ⟨t, ht, ts, hts, hlast⟩

/-- What there is of a trace that has been completed. -/
theorem exists_of_trace {p : Program} {mode : Mode} {fuel : Nat} {ts : List Term} {τ? : Option Ty}
    (h : p.trace mode fuel = some (.ok (ts, τ?))) :
    ∃ t us v, p.term = .ok t ∧ ts = t :: us ∧ ts.getLast? = some v ∧ ts.IsChain Term.StepsTo := by
  obtain ⟨t, ht, hts⟩ := trace_eq_ok_iff.mp h
  have hchain := Term.isChain_of_trace hts
  obtain ⟨us, rfl⟩ := Term.exists_cons_of_trace hts
  exact ⟨t, us, _, term_of_ready ht, rfl, List.getLast?_cons, hchain⟩

theorem evaluate_eq_none_iff {p : Program} {mode : Mode} {fuel : Nat} :
    p.evaluate mode fuel = none ↔
      ∃ t τ? u, p.ready mode = .ok (t, τ?) ∧ Term.Run fuel t u := by
  rw [evaluate]
  rcases p.ready mode with f | ⟨t, τ?⟩
  · simp
  · simp [Term.evaluate_eq_none_iff]

/-- Both run out of fuel, or neither does. -/
theorem trace_eq_none_iff {p : Program} {mode : Mode} {fuel : Nat} :
    p.trace mode fuel = none ↔ p.evaluate mode fuel = none := by
  rcases htrace : p.trace mode fuel with _ | f | ⟨ts, τ?⟩
  · rcases heval : p.evaluate mode fuel with _ | f | ⟨v, τ?⟩
    · simp
    · rw [trace_eq_error_iff.mpr heval] at htrace
      cases htrace
    · obtain ⟨ts, hts, _⟩ := evaluate_eq_ok_iff_trace.mp heval
      rw [hts] at htrace
      cases htrace
  · simp [trace_eq_error_iff.mp htrace]
  · obtain ⟨_, _, v, _, _, hlast, _⟩ := exists_of_trace htrace
    simp [evaluate_eq_ok_iff_trace.mpr ⟨ts, htrace, hlast⟩]

theorem evaluate_of_le {p : Program} {mode : Mode} {fuel fuel' : Nat}
    {r : Except Failure (Term × Option Ty)} (h : p.evaluate mode fuel = some r)
    (hle : fuel ≤ fuel') : p.evaluate mode fuel' = some r := by
  rw [evaluate] at h ⊢
  split at h
  · exact h
  · obtain ⟨r', hr, hmap⟩ := Option.map_eq_some_iff.mp h
    exact Option.map_eq_some_iff.mpr ⟨r', Term.evaluate_of_le hr hle, hmap⟩

theorem trace_of_le {p : Program} {mode : Mode} {fuel fuel' : Nat}
    {r : Except Failure (List Term × Option Ty)} (h : p.trace mode fuel = some r)
    (hle : fuel ≤ fuel') : p.trace mode fuel' = some r := by
  rw [trace] at h ⊢
  split at h
  · exact h
  · obtain ⟨r', hr, hmap⟩ := Option.map_eq_some_iff.mp h
    exact Option.map_eq_some_iff.mpr ⟨r', Term.trace_of_le hr hle, hmap⟩

/-- A program that is evaluated after it was typed is evaluated without a type just as well. -/
theorem evaluate_unchecked {p : Program} {rule : ApplicationRule} {fuel : Nat} {v : Term}
    {τ? : Option Ty} (h : p.evaluate ⟨rule, true⟩ fuel = some (.ok (v, τ?)))
    (rule' : ApplicationRule) : p.evaluate ⟨rule', false⟩ fuel = some (.ok (v, none)) := by
  obtain ⟨t, ht, hv⟩ := evaluate_eq_ok_iff.mp h
  exact evaluate_eq_ok_iff.mpr ⟨t, ready_unchecked_eq_ok_iff.mpr ⟨term_of_ready ht, rfl⟩, hv⟩

end Program

end Stlc
