import Stlc.Proofs.Instantiation
import Stlc.Term.Step

/-!
# Reduction as a relation

`step` is one reduction as it is performed, with its passes over indices of a bounded range. Here
is the relation that it implements: `Term.Reduces` is call by value on terms whose indices have no
bound, and `Term.Stuck` describes the terms that are neither values nor reduce. Where no index
overflows, `step` finds exactly the reduct, or that there is none.

`Term.Run n t u` says that `n` applications of `step`, none of which fails or finds a normal form,
lead from `t` to `u`; `evaluate`, `trace` and the reduction sequence made on demand are about runs.

## Key lemmas

* `Term.Reduces.of_step`, `Term.Reduces.step` — the relation and the function.
* `Term.step_eq_none_iff` — the function stops at values and stuck terms only.
* `Term.step_isOk`, `Term.step_eq_error` — it fails for want of indices only.
* `Term.evaluate_eq_ok_iff`, `Term.evaluate_eq_none_iff`, `Term.Run.evaluate_eq`,
  `Term.Run.trace_eq`, `Term.Run.take_eq` — what a run says about the loops.
-/

namespace Stlc

namespace Term

/-- Call by value: the head of an application is reduced first, then the argument, and then the
head is applied. -/
inductive Reduces : Term → Term → Prop where
  | beta {x τ t s' u s} : u.isValue → Reduces (app (lam x τ t s') u s) (t.contract u)
  | head {t t' u s} : Reduces t t' → Reduces (app t u s) (app t' u s)
  | arg {t u u' s} : t.isValue → Reduces u u' → Reduces (app t u s) (app t u' s)

/-- What stops short of a value: a variable is in the place where an abstraction was needed. -/
inductive Stuck : Term → Prop where
  | var {i s} : Stuck (var i s)
  | head {t u s} : Stuck t → Stuck (app t u s)
  | arg {t u s} : t.isValue → Stuck u → Stuck (app t u s)

theorem isValue_iff {t : Term} : t.isValue ↔ ∃ x τ b s, t = lam x τ b s := by
  cases t <;> simp [isValue]

/-! ## Values, stuck terms and terms that reduce exclude each other -/

theorem Stuck.not_isValue {t : Term} (h : t.Stuck) : ¬ t.isValue := by
  cases h <;> simp [isValue]

theorem Reduces.not_isValue {t u : Term} (h : t.Reduces u) : ¬ t.isValue := by
  cases h <;> simp [isValue]

theorem Reduces.not_stuck {t u : Term} (h : t.Reduces u) : ¬ t.Stuck := by
  induction h with
  | beta hu =>
      rintro (_ | h | ⟨_, h⟩)
      · exact h.not_isValue rfl
      · exact h.not_isValue hu
  | head ht ih =>
      rintro (_ | h | ⟨h, _⟩)
      · exact ih h
      · exact ht.not_isValue h
  | arg ht _ ih =>
      rintro (_ | h | ⟨_, h⟩)
      · exact h.not_isValue ht
      · exact ih h

theorem Reduces.deterministic {t u v : Term} (hu : t.Reduces u) (hv : t.Reduces v) : u = v := by
  induction hu generalizing v with
  | beta hw =>
      cases hv with
      | beta => rfl
      | head h => exact absurd rfl h.not_isValue
      | arg _ h => exact absurd hw h.not_isValue
  | head ht ih =>
      cases hv with
      | beta => exact absurd rfl ht.not_isValue
      | head h => rw [ih h]
      | arg h => exact absurd h ht.not_isValue
  | arg ht hw ih =>
      cases hv with
      | beta h => exact absurd h hw.not_isValue
      | head h => exact absurd ht h.not_isValue
      | arg _ h => rw [ih h]

/-- One of the three always holds. -/
theorem value_or_stuck_or_reduces (t : Term) : t.isValue ∨ t.Stuck ∨ ∃ u, t.Reduces u := by
  induction t with
  | var i s => exact .inr (.inl .var)
  | lam x τ t s ih => exact .inl rfl
  | app t u s iht ihu =>
      -- An application is no value. The head decides first, and then the argument.
      right
      rcases iht with ht | ht | ⟨t', ht⟩
      · rcases ihu with hu | hu | ⟨u', hu⟩
        · obtain ⟨x, τ, b, s', rfl⟩ := isValue_iff.mp ht
          exact .inr ⟨_, .beta hu⟩
        · exact .inl (.arg ht hu)
        · exact .inr ⟨_, .arg ht hu⟩
      · exact .inl (.head ht)
      · exact .inr ⟨_, .head ht⟩

/-- What a stuck term is stuck at is a free variable. -/
theorem Stuck.exists_hasFree {t : Term} (h : t.Stuck) : ∃ j, t.HasFree j := by
  induction h with
  | @var i s => exact ⟨i, rfl⟩
  | head _ ih =>
      obtain ⟨j, hj⟩ := ih
      exact ⟨j, .inl hj⟩
  | arg _ _ ih =>
      obtain ⟨j, hj⟩ := ih
      exact ⟨j, .inr hj⟩

theorem Scoped.not_stuck {t : Term} (h : t.Scoped 0) : ¬ t.Stuck := by
  intro hs
  obtain ⟨j, hj⟩ := hs.exists_hasFree
  exact absurd (h j hj) (Nat.not_lt_zero j)

/-- A reduction frees no variable. -/
theorem Reduces.hasFree {t u : Term} (h : t.Reduces u) {j : Nat} (hj : u.HasFree j) :
    t.HasFree j := by
  induction h with
  | beta _ => exact HasFree.of_contract hj
  | head _ ih => exact hj.imp_left ih
  | arg _ _ ih => exact hj.imp_right ih

theorem Reduces.scoped {t u : Term} (h : t.Reduces u) {n : Nat} (ht : t.Scoped n) : u.Scoped n :=
  fun j hj => ht j (h.hasFree hj)

/-- A reduction invents no name. -/
theorem Reduces.mem_binders {t u : Term} (h : t.Reduces u) {x : String} (hx : x ∈ u.binders) :
    x ∈ t.binders := by
  induction h with
  | @beta y τ t s' u s _ =>
      rcases mem_binders_contract hx with hx | hx
      · exact List.mem_append_left _ (List.mem_cons_of_mem y hx)
      · exact List.mem_append_right _ hx
  | head _ ih => grind [binders]
  | arg _ _ ih => grind [binders]

/-! ## What `step` does with an application -/

theorem step_of_isValue {t : Term} (h : t.isValue) : t.step = .ok none := by
  obtain ⟨x, τ, b, s, rfl⟩ := isValue_iff.mp h
  rfl

theorem step_app_beta {x : String} {τ : Ty} {t u : Term} {s' s : Span} (hu : u.isValue) :
    (app (lam x τ t s') u s).step = t.instantiate u >>= fun v => pure (some v) := by
  rw [step, if_pos hu]

theorem step_app_head {t u : Term} {s : Span} (ht : ¬ t.isValue) :
    (app t u s).step = t.step >>= fun t? => pure (t?.map fun t' => app t' u s) := by
  cases t with
  | var i s' => rfl
  | lam x τ b s' => exact absurd rfl ht
  | app t₁ t₂ s' => rfl

theorem step_app_arg {t u : Term} {s : Span} (ht : t.isValue) (hu : ¬ u.isValue) :
    (app t u s).step = u.step >>= fun u? => pure (u?.map fun u' => app t u' s) := by
  obtain ⟨x, τ, b, s', rfl⟩ := isValue_iff.mp ht
  rw [step, if_neg hu]

/-- All that a step of an application can do. -/
theorem step_app_cases {t u v : Term} {s : Span} (h : (app t u s).step = .ok (some v)) :
    (∃ x τ b s', t = lam x τ b s' ∧ u.isValue ∧ b.instantiate u = .ok v) ∨
      (∃ t', t.step = .ok (some t') ∧ v = app t' u s) ∨
      (t.isValue ∧ ∃ u', u.step = .ok (some u') ∧ v = app t u' s) := by
  by_cases ht : t.isValue
  · by_cases hu : u.isValue
    · obtain ⟨x, τ, b, s', rfl⟩ := isValue_iff.mp ht
      rw [step_app_beta hu] at h
      obtain ⟨w, hw, heq⟩ := bind_pure_eq_ok_iff.mp h
      cases heq
      exact .inl ⟨x, τ, b, s', rfl, hu, hw⟩
    · rw [step_app_arg ht hu] at h
      obtain ⟨_ | u', hs, heq⟩ := bind_pure_eq_ok_iff.mp h
      · cases heq
      · cases heq
        exact .inr (.inr ⟨ht, u', hs, rfl⟩)
  · rw [step_app_head ht] at h
    obtain ⟨_ | t', hs, heq⟩ := bind_pure_eq_ok_iff.mp h
    · cases heq
    · cases heq
      exact .inr (.inl ⟨t', hs, rfl⟩)

/-! ## The relation and the function -/

/-- Where `step` finds a reduct, it is the reduct. -/
theorem Reduces.of_step {t u : Term} (h : t.step = .ok (some u)) : t.Reduces u := by
  induction t generalizing u with
  | var i s => cases h
  | lam x τ t s ih => cases h
  | app t₁ t₂ s ih₁ ih₂ =>
      obtain ⟨x, τ, b, s', rfl, h₂, hu⟩ | ⟨t₁', h₁, rfl⟩ | ⟨h₁, t₂', h₂, rfl⟩ := step_app_cases h
      · rw [instantiate_eq_ok hu]
        exact .beta h₂
      · exact .head (ih₁ h₁)
      · exact .arg h₁ (ih₂ h₂)

/-- A term that reduces is stepped to its reduct, unless an index overflows. -/
theorem Reduces.step {t u : Term} (h : t.Reduces u) :
    t.step = .ok (some u) ∨ ∃ e, t.step = .error e := by
  induction h with
  | @beta x τ t s' u s hu =>
      rw [step_app_beta hu]
      cases hv : t.instantiate u with
      | error e => exact .inr ⟨e, rfl⟩
      | ok v =>
          rw [instantiate_eq_ok hv]
          exact .inl rfl
  | head ht ih =>
      rw [step_app_head ht.not_isValue]
      rcases ih with h | ⟨e, h⟩
      · rw [h]
        exact .inl rfl
      · rw [h]
        exact .inr ⟨e, rfl⟩
  | arg ht hu ih =>
      rw [step_app_arg ht hu.not_isValue]
      rcases ih with h | ⟨e, h⟩
      · rw [h]
        exact .inl rfl
      · rw [h]
        exact .inr ⟨e, rfl⟩

theorem Stuck.step {t : Term} (h : t.Stuck) : t.step = .ok none := by
  induction h with
  | var => rfl
  | head ht ih =>
      rw [step_app_head ht.not_isValue, ih]
      rfl
  | arg ht hu ih =>
      rw [step_app_arg ht hu.not_isValue, ih]
      rfl

/-- `step` finds nothing to do in values and stuck terms, and nowhere else. -/
theorem step_eq_none_iff {t : Term} : t.step = .ok none ↔ t.isValue ∨ t.Stuck := by
  constructor
  · intro h
    rcases value_or_stuck_or_reduces t with ht | ht | ⟨u, ht⟩
    · exact .inl ht
    · exact .inr ht
    · -- A term that reduces is stepped, or fails.
      rcases ht.step with h' | ⟨e, h'⟩
      · rw [h'] at h
        cases h
      · rw [h'] at h
        cases h
  · rintro (ht | ht)
    · exact step_of_isValue ht
    · exact ht.step

/-- A step that fails does so because an index overflows. -/
theorem step_eq_error {t : Term} {e : ShiftError} (h : t.step = .error e) : e.IsOverflow := by
  induction t generalizing e with
  | var i s => cases h
  | lam x τ t s ih => cases h
  | app t₁ t₂ s ih₁ ih₂ =>
      by_cases h₁ : t₁.isValue
      · by_cases h₂ : t₂.isValue
        · obtain ⟨x, τ, b, s', rfl⟩ := isValue_iff.mp h₁
          rw [step_app_beta h₂] at h
          exact instantiate_eq_error (bind_pure_eq_error_iff.mp h)
        · rw [step_app_arg h₁ h₂] at h
          exact ih₂ (bind_pure_eq_error_iff.mp h)
      · rw [step_app_head h₁] at h
        exact ih₁ (bind_pure_eq_error_iff.mp h)

/-- A step succeeds as long as there are indices for all variables in scope and all binders. -/
theorem step_isOk {t : Term} {n : Nat} (h : t.Scoped n) (hn : n + t.lams < indexLimit) :
    ∃ r, t.step = .ok r := by
  induction t with
  | var i s => exact ⟨_, rfl⟩
  | lam x τ t s ih => exact ⟨_, rfl⟩
  | app t₁ t₂ s ih₁ ih₂ =>
      obtain ⟨ht₁, ht₂⟩ := (scoped_app ..).mp h
      simp only [lams] at hn
      by_cases h₁ : t₁.isValue
      · by_cases h₂ : t₂.isValue
        · obtain ⟨x, τ, b, s', rfl⟩ := isValue_iff.mp h₁
          -- The contraction nests at most as deep as there are abstractions in the redex.
          have hb := depth_le_lams b
          have hu := depth_le_lams t₂
          simp only [lams] at hn
          rw [step_app_beta h₂, instantiate_isOk ((scoped_lam ..).mp ht₁) ht₂ (by omega)]
          exact ⟨_, rfl⟩
        · obtain ⟨r, hr⟩ := ih₂ ht₂ (by omega)
          rw [step_app_arg h₁ h₂, hr]
          exact ⟨_, rfl⟩
      · obtain ⟨r, hr⟩ := ih₁ ht₁ (by omega)
        rw [step_app_head h₁, hr]
        exact ⟨_, rfl⟩

/-! ## Runs -/

/-- The term `n` steps after `t` is `u`. -/
inductive Run : Nat → Term → Term → Prop where
  | refl {t} : Run 0 t t
  | cons {n t u v} : t.step = .ok (some u) → Run n u v → Run (n + 1) t v

theorem run_zero_iff {t u : Term} : Run 0 t u ↔ t = u := by
  constructor
  · intro h
    cases h
    rfl
  · rintro rfl
    exact .refl

theorem run_succ_iff {n : Nat} {t v : Term} :
    Run (n + 1) t v ↔ ∃ u, t.step = .ok (some u) ∧ Run n u v := by
  constructor
  · intro h
    cases h with
    | cons hs hr => exact ⟨_, hs, hr⟩
  · rintro ⟨u, hs, hr⟩
    exact .cons hs hr

theorem Run.trans {n m : Nat} {t u v : Term} (h : Run n t u) (h' : Run m u v) :
    Run (n + m) t v := by
  induction h with
  | refl => rwa [Nat.zero_add]
  | cons hs _ ih =>
      rw [Nat.add_right_comm]
      exact .cons hs (ih h')

/-- What every step keeps, a run keeps. -/
theorem Run.induct {P : Term → Prop} (hstep : ∀ t u, t.Reduces u → P t → P u) {n : Nat}
    {t u : Term} (h : Run n t u) (ht : P t) : P u := by
  induction h with
  | refl => exact ht
  | cons hs _ ih => exact ih (hstep _ _ (.of_step hs) ht)

theorem Run.scoped {n m : Nat} {t u : Term} (h : Run n t u) (ht : t.Scoped m) : u.Scoped m :=
  h.induct (P := (Scoped m ·)) (fun _ _ hs => hs.scoped) ht

def Halted (t : Term) : Prop := ∀ u, t.step ≠ .ok (some u)

theorem Halted.cases {t : Term} (h : t.Halted) : t.step = .ok none ∨ ∃ e, t.step = .error e := by
  rcases hs : t.step with e | _ | u
  · exact .inr ⟨e, rfl⟩
  · exact .inl rfl
  · exact absurd hs (h u)

/-! ## The loops -/

theorem evaluate_eq_ok_iff {fuel : Nat} {t v : Term} :
    t.evaluate fuel = some (.ok v) ↔ ∃ n, n < fuel ∧ Run n t v ∧ v.step = .ok none := by
  induction fuel generalizing t with
  | zero => simp [evaluate]
  | succ fuel ih =>
      rw [evaluate]
      constructor
      · intro h
        split at h
        · cases h
        · next hs =>
            cases h
            exact ⟨0, Nat.succ_pos fuel, .refl, hs⟩
        · next u hs =>
            obtain ⟨n, hn, hr, hv⟩ := ih.mp h
            exact ⟨n + 1, Nat.succ_lt_succ hn, .cons hs hr, hv⟩
      · rintro ⟨n, hn, hr, hv⟩
        cases hr with
        | refl => rw [hv]
        | @cons n _ u _ hs hr =>
            rw [hs]
            exact ih.mpr ⟨n, Nat.lt_of_succ_lt_succ hn, hr, hv⟩

/-- The loop is stopped if it could have taken all the steps that it had. -/
theorem evaluate_eq_none_iff {fuel : Nat} {t : Term} :
    t.evaluate fuel = none ↔ ∃ u, Run fuel t u := by
  induction fuel generalizing t with
  | zero => exact ⟨fun _ => ⟨t, .refl⟩, fun _ => rfl⟩
  | succ fuel ih =>
      rw [evaluate]
      simp only [run_succ_iff]
      rcases hs : t.step with e | _ | u
      · simp
      · simp
      · simp only [ih, Except.ok.injEq, Option.some.injEq]
        constructor
        · rintro ⟨v, hv⟩
          exact ⟨v, u, rfl, hv⟩
        · rintro ⟨v, _, rfl, hv⟩
          exact ⟨v, hv⟩

theorem take_none (n : Nat) : (⟨none⟩ : Reduction).take n = [] := by
  cases n <;> rfl

theorem take_of_step {t u : Term} (h : t.step = .ok (some u)) (n : Nat) :
    (Reduction.ofTerm t).take (n + 1) = .ok u :: (Reduction.ofTerm u).take n := by
  simp [Reduction.take, Reduction.next, Reduction.ofTerm, h]

theorem take_of_error {t : Term} {e : ShiftError} (h : t.step = .error e) (n : Nat) :
    (Reduction.ofTerm t).take (n + 1) = [.error e] := by
  simp [Reduction.take, Reduction.next, Reduction.ofTerm, h, take_none]

theorem take_of_step_eq_none {t : Term} (h : t.step = .ok none) (n : Nat) :
    (Reduction.ofTerm t).take (n + 1) = [] := by
  simp [Reduction.take, Reduction.next, Reduction.ofTerm, h]

/-- A loop fails where a step does. -/
theorem run_of_evaluate_eq_error {fuel : Nat} {t : Term} {e : ShiftError}
    (h : t.evaluate fuel = some (.error e)) :
    ∃ n u, n < fuel ∧ Run n t u ∧ u.step = .error e := by
  induction fuel generalizing t with
  | zero => cases h
  | succ fuel ih =>
      rw [evaluate] at h
      split at h
      · next hs =>
          cases h
          exact ⟨0, t, Nat.succ_pos fuel, .refl, hs⟩
      · cases h
      · next u hs =>
          obtain ⟨n, v, hn, hr, hv⟩ := ih h
          exact ⟨n + 1, v, Nat.succ_lt_succ hn, .cons hs hr, hv⟩

theorem Run.evaluate_eq_error {n : Nat} {t u : Term} {e : ShiftError} (h : Run n t u)
    (hu : u.step = .error e) {fuel : Nat} (hn : n < fuel) : t.evaluate fuel = some (.error e) := by
  induction h generalizing fuel with
  | refl =>
      obtain ⟨fuel, rfl⟩ : ∃ k, fuel = k + 1 := ⟨fuel - 1, by omega⟩
      rw [evaluate, hu]
  | cons hs _ ih =>
      obtain ⟨fuel, rfl⟩ : ∃ k, fuel = k + 1 := ⟨fuel - 1, by omega⟩
      rw [evaluate, hs]
      exact ih hu (Nat.lt_of_succ_lt_succ hn)

theorem trace_eq_error_iff {fuel : Nat} {t : Term} {e : ShiftError} :
    t.trace fuel = some (.error e) ↔ t.evaluate fuel = some (.error e) := by
  induction fuel generalizing t with
  | zero => simp [trace, evaluate]
  | succ fuel ih =>
      rw [trace, evaluate]
      split
      · simp
      · simp
      · next u _ =>
          rw [← ih, Option.map_eq_some_iff]
          simp only [map_eq_error_iff, exists_eq_right]

/-- So does the sequence made on demand. -/
theorem run_of_error_mem_take {m : Nat} {t : Term} {e : ShiftError}
    (h : .error e ∈ (Reduction.ofTerm t).take m) :
    ∃ n u, n < m ∧ Run n t u ∧ u.step = .error e := by
  induction m generalizing t with
  | zero => cases h
  | succ m ih =>
      rcases hs : t.step with e' | _ | u
      · rw [take_of_error hs, List.mem_singleton] at h
        cases h
        exact ⟨0, t, Nat.succ_pos m, .refl, hs⟩
      · rw [take_of_step_eq_none hs] at h
        cases h
      · rw [take_of_step hs] at h
        rcases List.mem_cons.mp h with h | h
        · cases h
        · obtain ⟨n, v, hn, hr, hv⟩ := ih h
          exact ⟨n + 1, v, Nat.succ_lt_succ hn, .cons hs hr, hv⟩

/-! ## More fuel -/

theorem evaluate_of_le {fuel fuel' : Nat} {t : Term} {r : Except ShiftError Term}
    (h : t.evaluate fuel = some r) (hle : fuel ≤ fuel') : t.evaluate fuel' = some r := by
  induction fuel generalizing t fuel' with
  | zero => cases h
  | succ fuel ih =>
      obtain ⟨fuel', rfl⟩ : ∃ k, fuel' = k + 1 := ⟨fuel' - 1, by omega⟩
      rw [evaluate] at h ⊢
      rcases hs : t.step with e | _ | u
      · rwa [hs] at h
      · rwa [hs] at h
      · rw [hs] at h
        exact ih h (by omega)

theorem trace_of_le {fuel fuel' : Nat} {t : Term} {r : Except ShiftError (List Term)}
    (h : t.trace fuel = some r) (hle : fuel ≤ fuel') : t.trace fuel' = some r := by
  induction fuel generalizing t fuel' r with
  | zero => cases h
  | succ fuel ih =>
      obtain ⟨fuel', rfl⟩ : ∃ k, fuel' = k + 1 := ⟨fuel' - 1, by omega⟩
      rw [trace] at h ⊢
      rcases hs : t.step with e | _ | u
      · rwa [hs] at h
      · rwa [hs] at h
      · rw [hs] at h
        obtain ⟨r', hr, hmap⟩ := Option.map_eq_some_iff.mp h
        exact Option.map_eq_some_iff.mpr ⟨r', ih hr (by omega), hmap⟩

/-- With more fuel than there are steps, the loop ends, and more of it changes nothing. -/
theorem Run.evaluate_eq {n : Nat} {t u : Term} (h : Run n t u) (hu : u.Halted) :
    ∃ r, ∀ fuel, n < fuel → t.evaluate fuel = some r := by
  have hend : ∃ r, t.evaluate (n + 1) = some r := by
    induction h with
    | refl =>
        rcases hu.cases with hs | ⟨e, hs⟩
        · exact ⟨_, by rw [evaluate, hs]⟩
        · exact ⟨_, by rw [evaluate, hs]⟩
    | cons hs _ ih =>
        rw [evaluate, hs]
        exact ih hu
  obtain ⟨r, hr⟩ := hend
  exact ⟨r, fun fuel hf => evaluate_of_le hr hf⟩

theorem Run.trace_eq {n : Nat} {t u : Term} (h : Run n t u) (hu : u.Halted) :
    ∃ r, ∀ fuel, n < fuel → t.trace fuel = some r := by
  have hend : ∃ r, t.trace (n + 1) = some r := by
    induction h with
    | refl =>
        rcases hu.cases with hs | ⟨e, hs⟩
        · exact ⟨_, by rw [trace, hs]⟩
        · exact ⟨_, by rw [trace, hs]⟩
    | cons hs _ ih =>
        obtain ⟨r, hr⟩ := ih hu
        rw [trace, hs]
        exact ⟨_, Option.map_eq_some_iff.mpr ⟨r, hr, rfl⟩⟩
  obtain ⟨r, hr⟩ := hend
  exact ⟨r, fun fuel hf => trace_of_le hr hf⟩

/-! ## The terms on the way -/

theorem trace_succ_eq_ok_iff {fuel : Nat} {t : Term} {ts : List Term} :
    t.trace (fuel + 1) = some (.ok ts) ↔ t.step = .ok none ∧ ts = [t] ∨
      ∃ u us, t.step = .ok (some u) ∧ u.trace fuel = some (.ok us) ∧ ts = t :: us := by
  rw [trace]
  rcases hs : t.step with e | _ | u
  · simp
  · simp [eq_comm]
  · simp only [Option.map_eq_some_iff, map_eq_ok_iff, reduceCtorEq, Except.ok.injEq, false_and,
      Option.some.injEq, false_or]
    constructor
    · rintro ⟨_, hr, us, rfl, rfl⟩
      exact ⟨u, us, rfl, hr, rfl⟩
    · rintro ⟨_, us, rfl, hr, rfl⟩
      exact ⟨_, hr, us, rfl, rfl⟩

/-- Everything listed by `trace` is reached by a run. -/
theorem run_of_mem_trace {fuel : Nat} {t u : Term} {ts : List Term}
    (h : t.trace fuel = some (.ok ts)) (hu : u ∈ ts) : ∃ n, Run n t u := by
  induction fuel generalizing t ts with
  | zero => cases h
  | succ fuel ih =>
      rcases trace_succ_eq_ok_iff.mp h with ⟨_, rfl⟩ | ⟨v, us, hs, hus, rfl⟩
      · obtain rfl := List.mem_singleton.mp hu
        exact ⟨0, .refl⟩
      · rcases List.mem_cons.mp hu with rfl | hu
        · exact ⟨0, .refl⟩
        · obtain ⟨n, hn⟩ := ih hus hu
          exact ⟨n + 1, .cons hs hn⟩

/-- The sequence made on demand ends with the run, after at most one failure. -/
theorem Run.take_eq {n : Nat} {t u : Term} (h : Run n t u) (hu : u.Halted) :
    ∀ m, n < m → (Reduction.ofTerm t).take m = (Reduction.ofTerm t).take (n + 1) := by
  induction h with
  | @refl t =>
      intro m hm
      obtain ⟨k, rfl⟩ : ∃ k, m = k + 1 := ⟨m - 1, by omega⟩
      rcases hu.cases with hs | ⟨e, hs⟩
      · rw [take_of_step_eq_none hs, take_of_step_eq_none hs]
      · rw [take_of_error hs, take_of_error hs]
  | @cons n t u v hs _ ih =>
      intro m hm
      obtain ⟨k, rfl⟩ : ∃ k, m = k + 1 := ⟨m - 1, by omega⟩
      rw [take_of_step hs, take_of_step hs, ih hu k (by omega)]

end Term

end Stlc
