import Stlc.Diagnostic.Basic
import Stlc.Proofs.NamedTyping

/-!
# Where failures are

Every span that is reported on a program is one of the program's own source, whichever texts the
types of the context were read from (`reports_point_into_source`). The types that a report shows
have spans as well, and those may be of other texts; they are never used to mark a place.

What is at the span is what the report is about: a token or an end of one, the name that means
nothing or has no type, or the function and the argument of one application, either of which can be
cut out of the source and read alone.
-/

namespace Stlc

/-! ## The spans of reports -/

def SyntaxError.span : SyntaxError → Span
  | invalidToken n => .point n
  | unexpectedEnd n _ => .point n
  | unexpectedToken l _ => l.span

def TypingError.spans : TypingError → List Span
  | unboundIndex _ _ s => [s]
  | untypedBinding _ _ s => [s]
  | notAFunction _ s => [s]
  | mismatch _ _ s s' => [s', s]

def Failure.spans : Failure → List Span
  | parse err => [err.span]
  | resolve err => [err.span]
  | typing err => err.spans
  | evaluation _ => []

/-- An explanation marks the places that the failure is about, in their order. -/
theorem Failure.annotations_explain (f : Failure) :
    f.explain.annotations.map Annotation.span = f.spans := by
  cases f with
  | parse err => cases err <;> rfl
  | resolve err => rfl
  | typing err => cases err <;> rfl
  | evaluation err => rfl

/-! ## Syntax errors -/

namespace Reader

variable {σ α : Type} {R : Reader σ α}

/-- A text is not well formed at a token of it, or between two of its characters. -/
theorem span_isIn_of_parse {source : String} {err : SyntaxError}
    (h : R.parse source = .error err) : err.span.IsIn source := by
  rcases R.parse_eq_error_iff.mp h with hrun | ⟨s, stop, hrun, ⟨n, hstuck, rfl⟩ | ⟨_, _, rfl⟩⟩
  · obtain ⟨before, l, after, _, hls, _, _, rfl⟩ := R.exists_of_run_eq_error hrun
    exact (Scan.spells_of_mem (by simp [hls])).isIn
  · exact (Scan.isBoundary_of_stuckAt? hstuck).point_isIn
  · apply IsBoundary.point_isIn
    rw [R.stop_of_run hrun]
    cases hlast : (Scan.ofString source).lexemes.getLast? with
    | none => exact .zero source
    | some l => exact (Scan.spells_of_mem (List.mem_of_getLast? hlast)).isIn.stop_isBoundary

end Reader

/-! ## Names -/

theorem Expr.hasVarAt_of_resolveIn {e : Expr} {scope : Stack String} {err : UnboundName}
    (h : e.resolveIn scope = .error err) : e.HasVarAt err.name err.span := by
  induction e generalizing scope with
  | var x s =>
      rw [resolveIn] at h
      split at h
      · cases h
      · cases h
        exact ⟨rfl, rfl⟩
  | lam x τ e s ih => exact ih (bind_pure_eq_error_iff.mp h)
  | app e f s ihe ihf =>
      rcases error_of_bind_bind_pure h with h | h
      · exact .inl (ihe h)
      · exact .inr (ihf h)

/-! ## Failures of programs -/

namespace Program

/-- The failure is what becomes of the program, as far as one goes. -/
inductive Reports (p : Program) (f : Failure) : Prop where
  | term : p.term = .error f → Reports p f
  | typed {rule} : p.typed rule = .error f → Reports p f
  | evaluate {mode fuel} : p.evaluate mode fuel = some (.error f) → Reports p f
  | trace {mode fuel} : p.trace mode fuel = some (.error f) → Reports p f

/-- The stage that a failure belongs to has failed, after the stages before it. -/
inductive FailsAt (p : Program) : Failure → Prop where
  | parse {err} : Expr.parse p.source = .error err → FailsAt p (.parse err)
  | resolve {e err} : Expr.parse p.source = .ok e → e.resolve p.context = .error err →
      FailsAt p (.resolve err)
  | typing {e t rule err} : Expr.parse p.source = .ok e → e.resolve p.context = .ok t →
      t.typeOf rule p.context = .error err → FailsAt p (.typing err)
  | evaluation {err} : FailsAt p (.evaluation err)

theorem FailsAt.of_term {p : Program} {f : Failure} (h : p.term = .error f) : p.FailsAt f := by
  rcases term_eq_error_iff.mp h with ⟨err, herr, rfl⟩ | ⟨e, err, he, herr, rfl⟩
  · exact .parse herr
  · exact .resolve he herr

theorem FailsAt.of_typeOf {p : Program} {t : Term} {rule : ApplicationRule} {err : TypingError}
    (ht : p.term = .ok t) (herr : t.typeOf rule p.context = .error err) :
    p.FailsAt (.typing err) := by
  obtain ⟨e, he, hresolve⟩ := term_eq_ok_iff.mp ht
  exact .typing he hresolve herr

theorem FailsAt.of_evaluate {p : Program} {mode : Mode} {fuel : Nat} {f : Failure}
    (h : p.evaluate mode fuel = some (.error f)) : p.FailsAt f := by
  rcases evaluate_eq_error_iff.mp h with h | ⟨_, _, _, _, _, rfl⟩
  · rcases ready_eq_error_iff.mp h with h | ⟨_, t, err, ht, herr, rfl⟩
    · exact .of_term h
    · exact .of_typeOf ht herr
  · exact .evaluation

theorem Reports.failsAt {p : Program} {f : Failure} (h : p.Reports f) : p.FailsAt f := by
  cases h with
  | term h => exact .of_term h
  | typed h =>
      rcases typed_eq_error_iff.mp h with h | ⟨t, err, ht, herr, rfl⟩
      · exact .of_term h
      · exact .of_typeOf ht herr
  | evaluate h => exact .of_evaluate h
  | trace h => exact .of_evaluate (trace_eq_error_iff.mp h)

end Program

/-! ## What is at the spans -/

def Expr.AreAppliedIn (source : String) (fn arg : Expr) : Prop :=
  ∃ e s, parse source = .ok e ∧ (app fn arg s).IsPart e

theorem Expr.AreAppliedIn.readsAlone {source : String} {fn arg : Expr}
    (h : AreAppliedIn source fn arg) : fn.ReadsAlone source ∧ arg.ReadsAlone source := by
  obtain ⟨e, s, he, happ⟩ := h
  exact ⟨readsAlone_of_isPart he (.trans (.fn .self) happ),
    readsAlone_of_isPart he (.trans (.arg .self) happ)⟩

/-- What a typing error speaks of is what the source has at the spans. There is no variable in a
source that counts past the context. -/
def TypingError.IsSeenIn (source : String) : TypingError → Prop
  | unboundIndex .. => False
  | untypedBinding x _ s => s.Spells source x
  | notAFunction _ s => ∃ fn arg, Expr.AreAppliedIn source fn arg ∧ fn.span = s ∧
      fn.ReadsAlone source
  | mismatch _ _ s s' => s'.stop ≤ s.start ∧ ∃ fn arg, Expr.AreAppliedIn source fn arg ∧
      fn.span = s' ∧ arg.span = s ∧ fn.ReadsAlone source ∧ arg.ReadsAlone source

def Failure.IsSeenIn (source : String) : Failure → Prop
  | parse err => err.span.IsIn source
  | resolve err => err.span.Spells source err.name
  | typing err => err.IsSeenIn source
  | evaluation _ => True

theorem TypingError.isSeenIn_of_typeOf {source : String} {Γ : Context} {rule : ApplicationRule}
    {e : Expr} {t : Term} {err : TypingError} (he : Expr.parse source = .ok e)
    (ht : e.resolve Γ = .ok t) (herr : t.typeOf rule Γ = .error err) : err.IsSeenIn source := by
  obtain ⟨err', hsome, habout⟩ := Expr.isAbout_of_resolve ht herr
  cases err with
  | unboundIndex i depth s => cases hsome
  | untypedBinding x i s =>
      cases hsome
      exact Expr.spells_of_hasVarAt he habout
  | notAFunction found s =>
      cases hsome
      obtain ⟨fn, arg, s', happ, hfn⟩ := habout
      have happlied : Expr.AreAppliedIn source fn arg := ⟨e, s', he, happ⟩
      exact ⟨fn, arg, happlied, hfn, happlied.readsAlone.1⟩
  | mismatch expected found s s' =>
      cases hsome
      obtain ⟨fn, arg, s'', happ, rfl, rfl⟩ := habout
      have happlied : Expr.AreAppliedIn source fn arg := ⟨e, s'', he, happ⟩
      exact ⟨Expr.stop_le_start_of_isPart he happ, fn, arg, happlied, rfl, rfl,
        happlied.readsAlone⟩

theorem Program.FailsAt.isSeenIn {p : Program} {f : Failure} (h : p.FailsAt f) :
    f.IsSeenIn p.source := by
  cases h with
  | parse herr => exact Reader.span_isIn_of_parse herr
  | resolve he herr => exact Expr.spells_of_hasVarAt he (Expr.hasVarAt_of_resolveIn herr)
  | typing he ht herr => exact TypingError.isSeenIn_of_typeOf he ht herr
  | evaluation => trivial

theorem Expr.ReadsAlone.isIn {e : Expr} {source : String} (h : e.ReadsAlone source) :
    e.span.IsIn source := by
  obtain ⟨_, hspells, _⟩ := h
  exact hspells.isIn

theorem TypingError.IsSeenIn.isIn {source : String} {err : TypingError} (h : err.IsSeenIn source)
    {s : Span} (hs : s ∈ err.spans) : s.IsIn source := by
  cases err with
  | unboundIndex i depth s => exact h.elim
  | untypedBinding x i s =>
      obtain rfl := List.mem_singleton.mp hs
      exact Span.Spells.isIn h
  | notAFunction found s =>
      obtain rfl := List.mem_singleton.mp hs
      obtain ⟨fn, arg, _, rfl, hfn⟩ := h
      exact hfn.isIn
  | mismatch expected found s s' =>
      obtain ⟨_, fn, arg, _, rfl, rfl, hfn, harg⟩ := h
      rcases List.mem_pair.mp hs with rfl | rfl
      · exact hfn.isIn
      · exact harg.isIn

theorem Failure.IsSeenIn.isIn {source : String} {f : Failure} (h : f.IsSeenIn source) {s : Span}
    (hs : s ∈ f.spans) : s.IsIn source := by
  cases f with
  | parse err =>
      obtain rfl := List.mem_singleton.mp hs
      exact h
  | resolve err =>
      obtain rfl := List.mem_singleton.mp hs
      exact Span.Spells.isIn h
  | typing err => exact TypingError.IsSeenIn.isIn h hs
  | evaluation err => cases hs

/-- Every span of a failure that a program `Reports` lies in its source, on character boundaries,
and `IsSeenIn` says for each kind of failure what the source reads there. The annotations of
`explain` carry these spans and no others. `FailsAt` says where a failure came from, and
`FailsAt.isSeenIn` does the work. -/
theorem reports_point_into_source {p : Program} {f : Failure} (h : p.Reports f) :
    (∀ s ∈ f.spans, s.IsIn p.source) ∧ f.IsSeenIn p.source ∧
      f.explain.annotations.map Annotation.span = f.spans := by
  have hseen := h.failsAt.isSeenIn
  exact ⟨fun _ hs => hseen.isIn hs, hseen, f.annotations_explain⟩

/-- The types of the context are from longer texts than the source. -/
theorem reports_point_into_source_short :
    let domain : Ty := .arrow (.bool ⟨5, 9⟩) (.bool ⟨13, 17⟩) ⟨5, 17⟩
    let bool : Ty := .bool ⟨22, 26⟩
    let p : Program :=
      ⟨"(f) x", .ofList [.typed "f" (.arrow domain bool ⟨4, 26⟩), .typed "x" bool]⟩
    let f : Failure := .typing (.mismatch domain bool ⟨4, 5⟩ ⟨1, 2⟩)
    p.evaluate {} 1 = some (.error f) ∧ (∀ s ∈ f.spans, s.IsIn p.source) ∧
      f.IsSeenIn p.source ∧ f.explain.annotations.map Annotation.span = [⟨1, 2⟩, ⟨4, 5⟩] := by
  intro domain bool p f
  have h : p.evaluate {} 1 = some (.error f) := by cbv
  exact ⟨h, reports_point_into_source (.evaluate h)⟩

end Stlc
