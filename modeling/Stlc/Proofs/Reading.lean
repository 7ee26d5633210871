import Stlc.Parse.Reader
import Stlc.Proofs.Outcome

/-!
# Feeding a reader

What a reader makes of a text is what a fold of its step makes of the tokens: `feed` is that fold,
with the reports on what went wrong left out, and `parse_eq_ok_iff` takes a successful reading
apart into scanning, feeding and asking for the result. All that can be reported instead is in
`parse_eq_error_iff`.

An invariant that relates a state to the tokens fed so far is carried through by `feed_invariant`.
-/

namespace Stlc

/-! ## The span of a phrase -/

/-- From where the first token begins to where the last one ends. -/
def spanOf : List Lexeme → Span
  | [] => .nowhere
  | l :: ls => ⟨l.span.start, ((l :: ls).getLast (List.cons_ne_nil l ls)).span.stop⟩

theorem spanOf_append {ls ms : List Lexeme} (hls : ls ≠ []) (hms : ms ≠ []) :
    spanOf (ls ++ ms) = ⟨(spanOf ls).start, (spanOf ms).stop⟩ := by
  cases ls with
  | nil => exact absurd rfl hls
  | cons l ls =>
      cases ms with
      | nil => exact absurd rfl hms
      | cons m ms =>
          have hlast : (l :: ls ++ m :: ms).getLast (by simp) = (m :: ms).getLast (by simp) :=
            List.getLast_append_of_ne_nil _ (List.cons_ne_nil m ms)
          simp only [List.cons_append] at hlast
          simp only [spanOf, List.cons_append, hlast]

theorem spanOf_cons {l : Lexeme} {ls : List Lexeme} (hls : ls ≠ []) :
    spanOf (l :: ls) = ⟨l.span.start, (spanOf ls).stop⟩ :=
  spanOf_append (List.cons_ne_nil l []) hls

namespace Reader

variable {σ α : Type} (R : Reader σ α)

/-! ## Feeding -/

/-- The state after some more tokens, if they can stand there. -/
def feed (s : σ) (ls : List Lexeme) : Option σ := ls.foldlM R.step s

@[simp] theorem feed_nil (s : σ) : R.feed s [] = some s := rfl

@[simp] theorem feed_cons (s : σ) (l : Lexeme) (ls : List Lexeme) :
    R.feed s (l :: ls) = R.step s l >>= fun s => R.feed s ls := rfl

theorem feed_append (s : σ) (ls ms : List Lexeme) :
    R.feed s (ls ++ ms) = R.feed s ls >>= fun s => R.feed s ms := List.foldlM_append

theorem run_eq_ok_iff {s s' : σ} {stop : Nat} {ls : List Lexeme} :
    (∃ stop', R.run s stop ls = .ok (s', stop')) ↔ R.feed s ls = some s' := by
  induction ls generalizing s stop with
  | nil => simp [run]
  | cons l ls ih =>
      simp only [run, feed_cons]
      cases R.step s l with
      | none => simp
      | some s => exact ih

/-- Reading fails at the first token that the state before it does not take. -/
theorem exists_of_run_eq_error {s : σ} {stop : Nat} {ls : List Lexeme} {err : SyntaxError}
    (h : R.run s stop ls = .error err) :
    ∃ before l after s', ls = before ++ l :: after ∧ R.feed s before = some s' ∧
      R.step s' l = none ∧ err = .unexpectedToken l (R.expected s' (some l.token.terminal)) := by
  induction ls generalizing s stop with
  | nil => cases h
  | cons l ls ih =>
      rw [run] at h
      cases hstep : R.step s l with
      | none =>
          simp only [hstep] at h
          cases h
          exact ⟨[], l, ls, s, rfl, rfl, hstep, rfl⟩
      | some t =>
          simp only [hstep] at h
          obtain ⟨before, k, after, s', rfl, hfeed, hnone, herr⟩ := ih h
          refine ⟨l :: before, k, after, s', rfl, ?_, hnone, herr⟩
          rw [feed_cons, hstep]
          exact hfeed

/-- Reading answers where the last token ended. -/
theorem stop_of_run {s s' : σ} {stop stop' : Nat} {ls : List Lexeme}
    (h : R.run s stop ls = .ok (s', stop')) :
    stop' = (ls.getLast?.map (·.span.stop)).getD stop := by
  induction ls generalizing s stop with
  | nil =>
      cases h
      rfl
  | cons l ls ih =>
      rw [run] at h
      split at h
      · rw [ih h, List.getLast?_cons]
        cases ls.getLast? <;> rfl
      · cases h

/-- A text is read when it is scanned to its end and its tokens lead to a result. -/
theorem parse_eq_ok_iff {source : String} {a : α} :
    R.parse source = .ok a ↔ ∃ ls, Scan.ofString source = ⟨ls, none⟩ ∧
      ∃ s, R.feed R.start ls = some s ∧ R.result? s = some a := by
  rw [parse, ofScan, bind_eq_ok_iff]
  constructor
  · rintro ⟨⟨s, stop⟩, hrun, hresult⟩
    have hfeed := R.run_eq_ok_iff.mp ⟨stop, hrun⟩
    cases hstuck : (Scan.ofString source).stuckAt? with
    | some n => simp [hstuck] at hresult
    | none =>
        cases hr : R.result? s with
        | none => simp [hstuck, hr] at hresult
        | some b =>
            simp only [hstuck, hr, pure_eq_ok_iff] at hresult
            refine ⟨_, ?_, s, hfeed, ?_⟩
            · rw [← hstuck]
            · rw [hr, hresult]
  · rintro ⟨ls, hscan, s, hfeed, hresult⟩
    obtain ⟨stop, hrun⟩ := R.run_eq_ok_iff.mpr hfeed
    refine ⟨(s, stop), ?_, ?_⟩
    · rw [hscan]
      exact hrun
    · simp only [hscan, hresult]
      rfl

/-- A text is refused at a token that cannot stand there. Where all tokens can, it is refused where
the scanner is stuck, or else at the end, for want of a result. -/
theorem parse_eq_error_iff {source : String} {err : SyntaxError} :
    R.parse source = .error err ↔
      R.run R.start 0 (Scan.ofString source).lexemes = .error err ∨
      ∃ s stop, R.run R.start 0 (Scan.ofString source).lexemes = .ok (s, stop) ∧
        ((∃ m, (Scan.ofString source).stuckAt? = some m ∧ err = .invalidToken m) ∨
          (Scan.ofString source).stuckAt? = none ∧ R.result? s = none ∧
            err = .unexpectedEnd stop (R.expected s none)) := by
  rw [parse, ofScan, bind_eq_error_iff]
  apply or_congr Iff.rfl
  constructor
  · rintro ⟨⟨s, stop⟩, hrun, h⟩
    refine ⟨s, stop, hrun, ?_⟩
    cases hstuck : (Scan.ofString source).stuckAt? with
    | some m =>
        simp only [hstuck] at h
        cases h
        exact .inl ⟨m, rfl, rfl⟩
    | none =>
        simp only [hstuck] at h
        cases hresult : R.result? s with
        | some a =>
            simp only [hresult] at h
            cases h
        | none =>
            simp only [hresult] at h
            cases h
            exact .inr ⟨rfl, rfl, rfl⟩
  · rintro ⟨s, stop, hrun, ⟨m, hstuck, rfl⟩ | ⟨hstuck, hresult, rfl⟩⟩
    · refine ⟨(s, stop), hrun, ?_⟩
      simp only [hstuck]
      rfl
    · refine ⟨(s, stop), hrun, ?_⟩
      simp only [hstuck, hresult]
      rfl

/-- What is reported as an invalid token is where the scanner is stuck, and all tokens in front of
it have been taken. -/
theorem parse_eq_invalidToken_iff {source : String} {m : Nat} :
    R.parse source = .error (.invalidToken m) ↔
      (Scan.ofString source).stuckAt? = some m ∧
        (R.feed R.start (Scan.ofString source).lexemes).isSome := by
  rw [parse_eq_error_iff]
  constructor
  · rintro (hrun | ⟨s, stop, hrun, ⟨n, hstuck, herr⟩ | ⟨_, _, herr⟩⟩)
    · obtain ⟨_, _, _, _, _, _, _, herr⟩ := R.exists_of_run_eq_error hrun
      cases herr
    · cases herr
      exact ⟨hstuck, Option.isSome_of_eq_some (R.run_eq_ok_iff.mp ⟨stop, hrun⟩)⟩
    · cases herr
  · rintro ⟨hstuck, hfeed⟩
    obtain ⟨s, hs⟩ := Option.isSome_iff_exists.mp hfeed
    obtain ⟨stop, hrun⟩ := R.run_eq_ok_iff.mpr hs
    exact .inr ⟨s, stop, hrun, .inl ⟨m, hstuck, rfl⟩⟩

variable {R}

/-- What every step preserves holds after every feeding. -/
theorem feed_invariant (Inv : σ → List Lexeme → Prop)
    (hstep : ∀ {s ks l s'}, Inv s ks → R.step s l = some s' → Inv s' (ks ++ [l]))
    {s s' : σ} {ks ls : List Lexeme} (hs : Inv s ks) (hfeed : R.feed s ls = some s') :
    Inv s' (ks ++ ls) := by
  induction ls generalizing s ks with
  | nil =>
      cases hfeed
      rwa [List.append_nil]
  | cons l ls ih =>
      rw [feed_cons, Option.bind_eq_bind, Option.bind_eq_some_iff] at hfeed
      obtain ⟨t, ht, hfeed⟩ := hfeed
      have hnext := ih (hstep hs ht) hfeed
      rwa [List.append_assoc] at hnext

/-- A reader that runs inside of another one is fed by feeding the other one. -/
theorem feed_map {τ β : Type} {S : Reader τ β} (f : σ → τ)
    (hstep : ∀ {s l s'}, R.step s l = some s' → S.step (f s) l = some (f s'))
    {s s' : σ} {ls : List Lexeme} (hfeed : R.feed s ls = some s') :
    S.feed (f s) ls = some (f s') := by
  induction ls generalizing s with
  | nil =>
      cases hfeed
      rfl
  | cons l ls ih =>
      rw [feed_cons, Option.bind_eq_bind, Option.bind_eq_some_iff] at hfeed
      obtain ⟨t, ht, hfeed⟩ := hfeed
      rw [feed_cons, hstep ht]
      exact ih hfeed

end Reader

end Stlc
