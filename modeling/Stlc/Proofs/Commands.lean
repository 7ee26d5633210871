import Stlc.Invocation
import Stlc.Proofs.Tracing

/-!
# What `evaluate` and `trace` print

Two invocations that differ in the command only, `evaluate` and `trace`, end in the same way. Where
they succeed, what `evaluate` prints is the end of what `trace` prints, behind the mark of the last
line (`Invocation.run_isTracedBy`). What a run comes to is read off `Program.evaluate` and
`Program.trace`, of the program that the invocation reads (`Invocation.Reads`).

## Key lemmas

* `Invocation.run_eq_none_iff`, `Invocation.run_succeeds_iff` — when there is no answer, and when it
  is a success, for any command.
* `Invocation.run_evaluate_succeeds_iff`, `Invocation.run_trace_succeeds_iff` — what the two print.

The main statement is `evaluate_steps_trace_agree`.
-/

namespace Stlc

/-! ## Texts -/

theorem withType_append (before text : String) (τ? : Option Ty) :
    withType (before ++ text) τ? = before ++ withType text τ? := by
  cases τ? with
  | none => rfl
  | some τ => simp only [withType, String.append_assoc]

theorem intercalate_concat (sep line : String) {lines : List String} (h : lines ≠ []) :
    sep.intercalate (lines ++ [line]) = sep.intercalate lines ++ sep ++ line := by
  induction lines with
  | nil => exact absurd rfl h
  | cons l lines ih =>
      cases lines with
      | nil => simp [String.intercalate_cons_cons]
      | cons l' lines =>
          have htail := ih (List.cons_ne_nil l' lines)
          simp only [List.cons_append, String.intercalate_cons_cons] at htail ⊢
          rw [htail]
          simp only [String.append_assoc]

/-- The last line of a trace is its last term, behind the mark that the line has. -/
theorem traceText_of_getLast? {Γ : Context} {ts : List Term} {v : Term}
    (h : ts.getLast? = some v) :
    traceText Γ ts = "   " ++ v.display Γ ∨
      ∃ before, traceText Γ ts = before ++ "\n-> " ++ v.display Γ := by
  obtain ⟨us, rfl⟩ := List.getLast?_eq_some_iff.mp h
  cases us with
  | nil => exact .inl (by simp [traceText])
  | cons t us =>
      refine .inr ⟨traceText Γ (t :: us), ?_⟩
      have hlines : ("   " ++ t.display Γ) :: us.map (fun u => "-> " ++ u.display Γ) ≠ [] :=
        List.cons_ne_nil _ _
      have hconcat := intercalate_concat "\n" ("-> " ++ v.display Γ) hlines
      have hmark : "\n-> " = "\n" ++ "-> " := rfl
      simp only [traceText, List.cons_append, List.map_append, List.map_cons, List.map_nil]
        at hconcat ⊢
      rw [hconcat, hmark]
      simp only [String.append_assoc]

/-! ## Outcomes -/

/-- What `trace` leaves behind where `evaluate` leaves `o`: the same if that is a failure, and
otherwise a text that ends with the text of `o`, behind the mark of the first line or of a later
one. -/
structure Outcome.IsTracedBy (o o' : Outcome) : Prop where
  code : o'.code = o.code
  errors : o'.errors = o.errors
  output_of_failure : o.code ≠ 0 → o'.output = o.output
  output_of_success : o.code = 0 →
    o'.output = "   " ++ o.output ∨ ∃ before, o'.output = before ++ "\n-> " ++ o.output

theorem Outcome.isTracedBy_self {o : Outcome} (h : o.code ≠ 0) : o.IsTracedBy o :=
  ⟨rfl, rfl, fun _ => rfl, fun hzero => absurd hzero h⟩

theorem Outcome.failure_isTracedBy (message : String) :
    (failure message).IsTracedBy (failure message) :=
  isTracedBy_self (show (1 : UInt8) ≠ 0 by decide)

/-- The texts of a result and of its trace go on with one type, and end with one line break. -/
theorem Outcome.success_isTracedBy {Γ : Context} {ts : List Term} {v : Term}
    (h : ts.getLast? = some v) (τ? : Option Ty) :
    (success (withType (v.display Γ) τ?)).IsTracedBy (success (withType (traceText Γ ts) τ?)) := by
  refine ⟨rfl, rfl, fun hne => absurd rfl hne, fun _ => ?_⟩
  rcases traceText_of_getLast? (Γ := Γ) h with htext | ⟨before, htext⟩
  · left
    rw [htext, withType_append]
    exact String.append_assoc
  · right
    refine ⟨before, ?_⟩
    rw [htext, withType_append]
    exact String.append_assoc

/-! ## Runs -/

namespace Invocation

/-- The source of the invocation is the text of the program, and its bindings are the context. -/
def Reads (inv : Invocation) (p : Program) : Prop :=
  inv.source.text = .ok p.source ∧ Context.parse inv.bindings = .ok p.context

theorem program_eq_ok_iff {inv : Invocation} {p : Program} :
    inv.program = .ok p ↔ inv.Reads p := by
  simp only [program, Reads, bind_bind_pure_eq_ok_iff, mapError_eq_ok_iff]
  constructor
  · rintro ⟨text, Γ, htext, hΓ, rfl⟩
    exact ⟨htext, hΓ⟩
  · rintro ⟨htext, hΓ⟩
    exact ⟨p.source, p.context, htext, hΓ, rfl⟩

theorem run_eq_none_iff {inv : Invocation} {fuel : Nat} :
    inv.run fuel = none ↔ ∃ p, inv.Reads p ∧ inv.result p fuel = none := by
  simp only [← program_eq_ok_iff]
  rw [run]
  rcases inv.program with message | p
  · simp
  · simp

/-- The code of a run is zero if there is a program and the command has a text for it, and then that
is what the run prints. -/
theorem run_succeeds_iff {inv : Invocation} {fuel : Nat} {o : Outcome} :
    inv.run fuel = some o ∧ o.code = 0 ↔
      ∃ p text, inv.Reads p ∧ inv.result p fuel = some (.ok text) ∧ o = .success text := by
  simp only [← program_eq_ok_iff]
  rw [run]
  constructor
  · rintro ⟨h, hcode⟩
    rcases hp : inv.program with message | p
    · rw [hp] at h
      cases h
      exact absurd hcode (show (1 : UInt8) ≠ 0 by decide)
    · rw [hp] at h
      obtain ⟨e | text, hresult, ho⟩ := Option.map_eq_some_iff.mp h
      · rw [← ho] at hcode
        exact absurd hcode (show (1 : UInt8) ≠ 0 by decide)
      · exact ⟨p, text, rfl, hresult, ho.symm⟩
  · rintro ⟨p, text, hp, hresult, rfl⟩
    rw [hp]
    exact ⟨Option.map_eq_some_iff.mpr ⟨.ok text, hresult, rfl⟩, rfl⟩

theorem run_evaluate_eq_none_iff {inv : Invocation} {fuel : Nat} :
    run { inv with command := .evaluate } fuel = none ↔
      ∃ p t τ? u, inv.Reads p ∧ p.ready inv.mode = .ok (t, τ?) ∧ Term.Run fuel t u := by
  rw [run_eq_none_iff]
  simp only [result, Option.map_eq_none_iff, Program.evaluate_eq_none_iff]
  constructor
  · rintro ⟨p, hp, t, τ?, u, ht, hu⟩
    exact ⟨p, t, τ?, u, hp, ht, hu⟩
  · rintro ⟨p, t, τ?, u, hp, ht, hu⟩
    exact ⟨p, hp, t, τ?, u, ht, hu⟩

/-- Both commands make a text of what a loop finds, so a run is a success exactly if the loop has a
result. -/
theorem run_succeeds_iff_of_result {α : Type} {inv : Invocation} {fuel : Nat} {o : Outcome}
    {find : Program → Option (Except Failure α)} {text : Program → α → String}
    (h : ∀ p, inv.result p fuel = (find p).map (Except.map (text p))) :
    inv.run fuel = some o ∧ o.code = 0 ↔
      ∃ p a, inv.Reads p ∧ find p = some (.ok a) ∧ o = .success (text p a) := by
  rw [run_succeeds_iff]
  simp only [h, Option.map_eq_some_iff, map_eq_ok_iff]
  constructor
  · rintro ⟨p, _, hp, ⟨_, hfind, a, rfl, rfl⟩, rfl⟩
    exact ⟨p, a, hp, hfind, rfl⟩
  · rintro ⟨p, a, hp, hfind, rfl⟩
    exact ⟨p, _, hp, ⟨_, hfind, a, rfl, rfl⟩, rfl⟩

theorem run_evaluate_succeeds_iff {inv : Invocation} {fuel : Nat} {o : Outcome} :
    run { inv with command := .evaluate } fuel = some o ∧ o.code = 0 ↔
      ∃ p v τ?, inv.Reads p ∧ p.evaluate inv.mode fuel = some (.ok (v, τ?)) ∧
        o = .success (withType (v.display p.context) τ?) := by
  have hresult (p : Program) : result { inv with command := .evaluate } p fuel =
      (p.evaluate inv.mode fuel).map
        (Except.map fun r => withType (r.1.display p.context) r.2) := rfl
  rw [run_succeeds_iff_of_result hresult]
  simp only [Prod.exists]
  exact Iff.rfl

theorem run_trace_succeeds_iff {inv : Invocation} {fuel : Nat} {o : Outcome} :
    run { inv with command := .trace } fuel = some o ∧ o.code = 0 ↔
      ∃ p ts τ?, inv.Reads p ∧ p.trace inv.mode fuel = some (.ok (ts, τ?)) ∧
        o = .success (withType (traceText p.context ts) τ?) := by
  have hresult (p : Program) : result { inv with command := .trace } p fuel =
      (p.trace inv.mode fuel).map
        (Except.map fun r => withType (traceText p.context r.1) r.2) := rfl
  rw [run_succeeds_iff_of_result hresult]
  simp only [Prod.exists]
  exact Iff.rfl

theorem run_isTracedBy (inv : Invocation) (fuel : Nat) :
    Option.Rel Outcome.IsTracedBy (run { inv with command := .evaluate } fuel)
      (run { inv with command := .trace } fuel) := by
  have hprogram (command : Command) : program { inv with command } = inv.program := rfl
  have hmode (command : Command) : mode { inv with command } = inv.mode := rfl
  rw [run, run, hprogram .evaluate, hprogram .trace]
  rcases inv.program with message | p
  · exact .some (Outcome.failure_isTracedBy message)
  · simp only [result, hmode]
    rcases heval : p.evaluate inv.mode fuel with _ | f | ⟨v, τ?⟩
    · rw [Program.trace_eq_none_iff.mpr heval]
      exact .none
    · rw [Program.trace_eq_error_iff.mpr heval]
      exact .some (Outcome.failure_isTracedBy _)
    · obtain ⟨ts, htrace, hlast⟩ := Program.evaluate_eq_ok_iff_trace.mp heval
      rw [htrace]
      exact .some (Outcome.success_isTracedBy hlast τ?)

end Invocation

/-- `Program.evaluate`, `Program.trace` and the `Reduction` of a term tell of one run, whatever the
mode. `Program.evaluate` has no answer if the run takes `fuel` steps or more, and only then; more
fuel changes no answer. What is evaluated after `typed` is evaluated without it as well.

`Invocation.run` with the command `evaluate` and with the command `trace` has an answer for the same
fuel. Its code is zero where `Program.evaluate` and `Program.trace` succeed on the program that is
read, and it prints their results; `Outcome.IsTracedBy` compares the two texts. -/
theorem evaluate_steps_trace_agree :
    (∀ (p : Program) (mode : Mode) (fuel : Nat),
      (p.evaluate mode fuel = none ↔
        ∃ t τ? u, p.ready mode = .ok (t, τ?) ∧ Term.Run fuel t u) ∧
      (p.trace mode fuel = none ↔ p.evaluate mode fuel = none) ∧
      (∀ f, p.trace mode fuel = some (.error f) ↔ p.evaluate mode fuel = some (.error f)) ∧
      (∀ v τ?, p.evaluate mode fuel = some (.ok (v, τ?)) ↔
        ∃ ts, p.trace mode fuel = some (.ok (ts, τ?)) ∧ ts.getLast? = some v) ∧
      (∀ ts τ?, p.trace mode fuel = some (.ok (ts, τ?)) →
        ∃ t us v, p.term = .ok t ∧ ts = t :: us ∧ ts.getLast? = some v ∧
          ts.IsChain Term.StepsTo) ∧
      (∀ fuel', fuel ≤ fuel' →
        (∀ r, p.evaluate mode fuel = some r → p.evaluate mode fuel' = some r) ∧
        (∀ r, p.trace mode fuel = some r → p.trace mode fuel' = some r))) ∧
    (∀ (p : Program) (rule : ApplicationRule) (fuel : Nat) (v : Term) (τ : Ty),
      p.evaluate ⟨rule, true⟩ fuel = some (.ok (v, some τ)) →
        ∀ rule', p.evaluate ⟨rule', false⟩ fuel = some (.ok (v, none))) ∧
    (∀ (t : Term) (i : Nat),
      (∀ u, (Reduction.ofTerm t).item i = some (.ok u) ↔ Term.Run (i + 1) t u) ∧
      (∀ e, (Reduction.ofTerm t).item i = some (.error e) ↔
        ∃ u, Term.Run i t u ∧ u.step = .error e)) ∧
    (∀ (r : Reduction) (i j : Nat), (∀ u, r.item i ≠ some (.ok u)) → i < j → r.item j = none) ∧
    (∀ (t : Term) (fuel m : Nat), fuel ≤ m →
      (∀ r, t.evaluate fuel = some r →
        ((Reduction.ofTerm t).take m).getLast?.getD (.ok t) = r) ∧
      (∀ ts, t.trace fuel = some (.ok ts) → (Reduction.ofTerm t).take m = ts.tail.map .ok)) ∧
    (∀ (inv : Invocation) (fuel : Nat),
      let evaluated := Invocation.run { inv with command := .evaluate } fuel
      let traced := Invocation.run { inv with command := .trace } fuel
      (evaluated = none ↔ ∃ p t τ? u, inv.Reads p ∧ p.ready inv.mode = .ok (t, τ?) ∧
        Term.Run fuel t u) ∧
      (∀ o, evaluated = some o ∧ o.code = 0 ↔ ∃ p v τ?, inv.Reads p ∧
        p.evaluate inv.mode fuel = some (.ok (v, τ?)) ∧
          o = .success (withType (v.display p.context) τ?)) ∧
      (∀ o, traced = some o ∧ o.code = 0 ↔ ∃ p ts τ?, inv.Reads p ∧
        p.trace inv.mode fuel = some (.ok (ts, τ?)) ∧
          o = .success (withType (traceText p.context ts) τ?)) ∧
      Option.Rel Outcome.IsTracedBy evaluated traced) := by
  refine ⟨?_, ?_, ?_, ?_, ?_, ?_⟩
  · intro p mode fuel
    refine ⟨Program.evaluate_eq_none_iff, Program.trace_eq_none_iff, ?_, ?_, ?_, ?_⟩
    · exact fun f => Program.trace_eq_error_iff
    · exact fun v τ? => Program.evaluate_eq_ok_iff_trace
    · exact fun ts τ? => Program.exists_of_trace
    · intro fuel' hle
      exact ⟨fun r h => Program.evaluate_of_le h hle, fun r h => Program.trace_of_le h hle⟩
  · intro p rule fuel v τ h rule'
    exact Program.evaluate_unchecked h rule'
  · intro t i
    exact ⟨fun u => Reduction.item_ofTerm_eq_ok_iff, fun e => Reduction.item_ofTerm_eq_error_iff⟩
  · intro r i j
    exact Reduction.item_eq_none
  · intro t fuel m hm
    constructor
    · exact fun r hr => Term.getLast?_take_of_evaluate hr hm
    · exact fun ts hts => Term.take_of_trace hts hm
  · intro inv fuel
    exact ⟨Invocation.run_evaluate_eq_none_iff, fun o => Invocation.run_evaluate_succeeds_iff,
      fun o => Invocation.run_trace_succeeds_iff, Invocation.run_isTracedBy inv fuel⟩

/-- The argument is reduced first, and what it is reduced to mentions the context. The texts that
the two commands print are those of the results. -/
theorem evaluate_steps_trace_agree_two_steps :
    let arrow : Nat → Ty := fun i =>
      .arrow (.bool ⟨i, i + 4⟩) (.bool ⟨i + 6, i + 10⟩) ⟨i, i + 10⟩
    let p : Program := ⟨"(\\f:Bool->Bool. f) ((\\g:Bool->Bool. g) (\\x:Bool. n x))",
      .ofList [.typed "n" (arrow 2)]⟩
    let inv : Invocation := ⟨⟨"\"-\"", .ok p.source⟩, ["n:Bool->Bool"], false, false, .parse⟩
    let fn : String → Nat → Term := fun x i =>
      .lam x (arrow (i + 3)) (.var 0 ⟨i + 15, i + 16⟩) ⟨i, i + 16⟩
    let v : Term := .lam "x" (.bool ⟨43, 47⟩) (.app (.var 1 ⟨49, 50⟩) (.var 0 ⟨51, 52⟩) ⟨49, 52⟩)
      ⟨40, 52⟩
    let u : Term := .app (fn "f" 1) v ⟨0, 54⟩
    let t : Term := .app (fn "f" 1) (.app (fn "g" 21) v ⟨20, 53⟩) ⟨0, 54⟩
    let printed := "\\x:Bool. n x\n: Bool -> Bool\n"
    let traced := "   (\\f:Bool -> Bool. f) ((\\g:Bool -> Bool. g) (\\x:Bool. n x))\n" ++
      "-> (\\f:Bool -> Bool. f) (\\x:Bool. n x)\n-> " ++ printed
    p.trace {} 3 = some (.ok ([t, u, v], some (arrow 4))) ∧
      p.evaluate {} 3 = some (.ok (v, some (arrow 4))) ∧
      p.evaluate ⟨.structural, false⟩ 3 = some (.ok (v, none)) ∧
      p.evaluate {} 7 = some (.ok (v, some (arrow 4))) ∧
      [t, u, v].IsChain Term.StepsTo ∧
      (Reduction.ofTerm t).take 5 = [.ok u, .ok v] ∧ (Reduction.ofTerm t).item 4 = none ∧
      Invocation.run { inv with command := .evaluate } 3 = some ⟨0, printed, ""⟩ ∧
      Invocation.run { inv with command := .trace } 3 = some ⟨0, traced, ""⟩ ∧
      Outcome.IsTracedBy ⟨0, printed, ""⟩ ⟨0, traced, ""⟩ := by
  have hbindings : Context.parse ["n:Bool->Bool"] =
      .ok (.ofList [.typed "n" (.arrow (.bool ⟨2, 6⟩) (.bool ⟨8, 12⟩) ⟨2, 12⟩)]) := by
    cbv
  intro arrow p inv fn v u t printed traced
  have htrace : p.trace {} 3 = some (.ok ([t, u, v], some (arrow 4))) := by cbv
  have hterm : t.trace 3 = some (.ok [t, u, v]) := rfl
  have hend : ∀ w, (Reduction.ofTerm t).item 2 ≠ some (.ok w) := by
    have hnone : (Reduction.ofTerm t).item 2 = none := rfl
    simp [hnone]
  have hprinted : printed = withType (v.display p.context) (some (arrow 4)) ++ "\n" := by decide
  have htraced : traced = withType (traceText p.context [t, u, v]) (some (arrow 4)) ++ "\n" := by
    decide
  obtain ⟨hprogram, hunchecked, _, hsequence, hlists, hruns⟩ := evaluate_steps_trace_agree
  obtain ⟨_, _, _, hresult, hparts, hfuel⟩ := hprogram p {} 3
  have heval := (hresult v (some (arrow 4))).mpr ⟨_, htrace, rfl⟩
  obtain ⟨_, _, _, _, _, _, hchain⟩ := hparts _ _ htrace
  obtain ⟨_, hevaluated, htracing, hrel⟩ := hruns inv 3
  obtain ⟨hleft, _⟩ := (hevaluated _).mpr ⟨p, v, _, ⟨rfl, hbindings⟩, heval, rfl⟩
  obtain ⟨hright, _⟩ := (htracing _).mpr ⟨p, _, _, ⟨rfl, hbindings⟩, htrace, rfl⟩
  rw [Outcome.success, ← hprinted] at hleft
  rw [Outcome.success, ← htraced] at hright
  rw [hleft, hright] at hrel
  cases hrel with
  | some hrel =>
      exact ⟨htrace, heval, hunchecked p .structural 3 v _ heval .structural,
        (hfuel 7 (by decide)).1 _ heval, hchain, (hlists t 3 5 (by decide)).2 _ hterm,
        hsequence _ 2 4 hend (by decide), hleft, hright, hrel⟩

end Stlc
