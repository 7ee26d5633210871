import Stlc.Proofs.Program
import Stlc.Proofs.Skeleton

/-!
# What is displayed is read back

A term can be displayed and read back if its names are names and its free variables can be named:
that is `Term.Writable`. Resolution only gives such terms and reduction keeps them such, so every
term on the way to a result can be written down and read back.

## Key lemmas

* `Term.Writable.display` — a writable term is read back, called what it was called in print.
* `Program.term_writable`, `Term.Run.writable` — where writable terms come from.
-/

namespace Stlc

open Term (nameIn?)

/-! ## Variables that can be named -/

/-- A variable that the context declares, and that no inner declaration hides. -/
def Context.Nameable (Γ : Context) (i : Nat) : Prop :=
  ∃ b, Γ.get? i = some b ∧ ∀ j c, j < i → Γ.get? j = some c → c.name ≠ b.name

theorem Context.nameable_iff {Γ : Context} {i : Nat} :
    Γ.Nameable i ↔ (nameIn? Γ.names i).isSome := by
  rw [Option.isSome_iff_exists]
  simp only [Term.nameIn?_eq_some_iff, Stack.findIdx?, List.findIdx?_eq_some_iff_getElem]
  constructor
  · rintro ⟨b, hb, hinner⟩
    obtain ⟨hi, hget⟩ := List.getElem?_eq_some_iff.mp hb
    refine ⟨b.name, ?_, ?_, ?_⟩
    · simpa [Context.names, Stack.map] using hi
    · simp [Context.names, Stack.map, hget]
    · intro j hj
      have hlt : j < Γ.entries.length := Nat.lt_trans hj hi
      have hne := hinner j Γ.entries[j] hj (List.getElem?_eq_getElem hlt)
      simpa [Context.names, Stack.map] using hne
  · rintro ⟨x, hi, hx, hinner⟩
    have hlt : i < Γ.entries.length := by simpa [Context.names, Stack.map] using hi
    refine ⟨Γ.entries[i], List.getElem?_eq_getElem hlt, ?_⟩
    intro j c hj hc
    obtain ⟨hjlt, rfl⟩ := List.getElem?_eq_some_iff.mp hc
    have hne := hinner j hj
    simp only [Context.names, Stack.map, List.getElem_map, beq_iff_eq] at hx hne
    rw [hx]
    exact hne

theorem Context.isName_names {Γ : Context} (h : ∀ b ∈ Γ.entries, IsName b.name) :
    ∀ x ∈ Γ.names.entries, IsName x := by
  intro x hx
  obtain ⟨b, hb, rfl⟩ := List.mem_map.mp hx
  exact h b hb

/-! ## Terms that can be written -/

/-- The names of a term are names, and the context has names for its free variables. -/
structure Term.Writable (Γ : Context) (t : Term) : Prop where
  binders : ∀ x ∈ t.binders, IsName x
  free : ∀ i, t.HasFree i → Γ.Nameable i

namespace Term

/-- What is displayed is parsed and resolved to the term that was displayed, up to spans, with its
binders called what they are called in print. -/
theorem Writable.term_display {Γ : Context} {t : Term} (h : t.Writable Γ)
    (hΓ : ∀ b ∈ Γ.entries, IsName b.name) :
    ∃ t', Program.term ⟨t.display Γ, Γ⟩ = .ok t' ∧
      t'.eraseSpans = (t.refresh Γ.names).eraseSpans := by
  -- Names are chosen, printed, scanned and parsed, and then resolved.
  have hnamed : (t.named Γ.names).isSome :=
    named_isSome_iff.mpr fun i hi => Context.nameable_iff.mp (h.free i hi)
  obtain ⟨e, he⟩ := Option.isSome_iff_exists.mp hnamed
  have hnames := isName_of_named he (Context.isName_names hΓ) h.binders
  obtain ⟨f, hf, hspans⟩ := e.parse_toText hnames
  obtain ⟨t', ht', heq⟩ := Expr.resolveIn_of_eraseSpans_eq hspans (resolveIn_of_named he)
  refine ⟨t', Program.term_eq_ok_iff.mpr ⟨f, ?_, ht'⟩, heq⟩
  rw [← hf, display, write_of_named he]

theorem Writable.display {Γ : Context} {t : Term} (h : t.Writable Γ)
    (hΓ : ∀ b ∈ Γ.entries, IsName b.name) :
    ∃ t', Program.term ⟨t.display Γ, Γ⟩ = .ok t' ∧ t'.skeleton = t.skeleton ∧
      (t.BindersFresh Γ.names → t'.sameAs t) ∧ t'.display Γ = t.display Γ := by
  obtain ⟨t', ht', heq⟩ := h.term_display hΓ
  refine ⟨t', ht', ?_, ?_, ?_⟩
  · rw [← skeleton_eraseSpans, heq, skeleton_eraseSpans, skeleton_refresh]
  · intro hfresh
    rw [sameAs_iff, heq, refresh_of_bindersFresh hfresh]
  · rw [Term.display, ← write_eraseSpans, heq, write_eraseSpans, write_refresh, Term.display]

end Term

/-- Resolution gives terms that can be written. -/
theorem Program.term_writable {p : Program} {t : Term} (h : p.term = .ok t) :
    t.Writable p.context := by
  obtain ⟨e, he, ht⟩ := Program.term_eq_ok_iff.mp h
  refine ⟨?_, ?_⟩
  · intro x hx
    exact Expr.isName_of_parse he x (Expr.binders_subset_of_resolveIn ht hx)
  · intro i hi
    exact Context.nameable_iff.mpr (Expr.nameIn?_of_resolveIn ht hi)

theorem Term.Reduces.writable {Γ : Context} {t u : Term} (h : t.Reduces u) (ht : t.Writable Γ) :
    u.Writable Γ :=
  ⟨fun x hx => ht.binders x (h.mem_binders hx), fun i hi => ht.free i (h.hasFree hi)⟩

/-- Reduction keeps a term writable, however long it goes on. -/
theorem Term.Run.writable {Γ : Context} {n : Nat} {t u : Term} (h : Term.Run n t u)
    (ht : t.Writable Γ) : u.Writable Γ :=
  h.induct (P := (Term.Writable Γ ·)) (fun _ _ hs => hs.writable) ht

/-! ## Displaying and reading back -/

/-- `Program.term` reads `Term.display` back. For a term whose free variables are `Nameable` in
`Γ` it gives a term with the same `skeleton`, the same one up to spans where `display` had no
binder to prime (`BindersFresh`), and displaying it again changes nothing. If a free variable is
not `Nameable`, `display` writes its index behind a `#`, and `Expr.parse` fails. -/
theorem display_round_trip (Γ : Context) (t : Term) (hΓ : ∀ b ∈ Γ.entries, IsName b.name)
    (ht : ∀ x ∈ t.binders, IsName x) :
    ((∀ i, t.HasFree i → Γ.Nameable i) →
      ∃ t', Program.term ⟨t.display Γ, Γ⟩ = .ok t' ∧ t'.skeleton = t.skeleton ∧
        (t.BindersFresh Γ.names → t'.sameAs t) ∧ t'.display Γ = t.display Γ) ∧
    ((∃ i, t.HasFree i ∧ ¬ Γ.Nameable i) → ∃ e, Expr.parse (t.display Γ) = .error e) := by
  constructor
  · intro hfree
    exact Term.Writable.display ⟨ht, hfree⟩ hΓ
  · rintro ⟨i, hi, hname⟩
    refine Term.parse_write_of_not_named ?_ .top (Context.isName_names hΓ) ht
    rw [← Option.not_isSome_iff_eq_none, Term.named_isSome_iff]
    intro hall
    exact hname (Context.nameable_iff.mpr (hall i hi))

/-- A binder that gets a prime, in a context that has all of its names and in one that hides one. -/
theorem display_round_trip_primed_binder :
    let bool : Ty := .bool .nowhere
    let t : Term := .lam "x" bool (.app (.var 2 .nowhere)
      (.app (.var 1 .nowhere) (.var 0 .nowhere) .nowhere) .nowhere) .nowhere
    let Γ : Context := .ofList [.untyped "f", .typed "x" bool]
    let Δ : Context := .ofList [.untyped "x", .typed "x" bool]
    (t.display Γ = "\\x':Bool. f (x x')" ∧
      ∃ t', Program.term ⟨t.display Γ, Γ⟩ = .ok t' ∧ t'.skeleton = t.skeleton) ∧
    (t.display Δ = "\\x':Bool. #2 (x x')" ∧ ∃ e, Expr.parse (t.display Δ) = .error e) := by
  intro bool t Γ Δ
  have ht : ∀ x ∈ t.binders, IsName x := by decide
  have hfree : ∀ i, t.HasFree i ↔ i = 0 ∨ i = 1 := by
    intro i
    simp only [t, Term.HasFree]
    omega
  constructor
  · refine ⟨by decide, ?_⟩
    have hname : ∀ i, t.HasFree i → Γ.Nameable i := by
      intro i hi
      rw [Context.nameable_iff]
      rcases (hfree i).mp hi with rfl | rfl <;> rfl
    obtain ⟨t', ht', hskel, _⟩ := (display_round_trip Γ t (by decide) ht).1 hname
    exact ⟨t', ht', hskel⟩
  · refine ⟨by decide, (display_round_trip Δ t (by decide) ht).2 ⟨1, (hfree 1).mpr (.inr rfl), ?_⟩⟩
    rw [Context.nameable_iff]
    decide

/-! ## Displaying results -/

/-- `Term.Writable.display` for what programs print. A value of `Program.evaluate` is `Writable`,
so its `display` is a program again: with the same `skeleton`, the same type up to spans in
checked mode, and no step to take, so that `evaluate` and `trace` answer at once. In `trace`, the
same goes for each term that is listed, as far as reading back goes. -/
theorem results_round_trip (Γ : Context) (source : String)
    (hΓ : ∀ b ∈ Γ.entries, IsName b.name) :
    (∀ fuel v τ, Program.evaluate ⟨source, Γ⟩ {} fuel = some (.ok (v, some τ)) →
      ∃ v' τ', (∀ fuel', 0 < fuel' →
          Program.evaluate ⟨v.display Γ, Γ⟩ {} fuel' = some (.ok (v', some τ')) ∧
          Program.trace ⟨v.display Γ, Γ⟩ {} fuel' = some (.ok ([v'], some τ'))) ∧
        τ'.sameAs τ ∧ v'.skeleton = v.skeleton ∧ v'.display Γ = v.display Γ) ∧
    (∀ rule fuel v τ?, Program.evaluate ⟨source, Γ⟩ ⟨rule, false⟩ fuel = some (.ok (v, τ?)) →
      ∃ v', (∀ fuel', 0 < fuel' →
          Program.evaluate ⟨v.display Γ, Γ⟩ ⟨rule, false⟩ fuel' = some (.ok (v', none)) ∧
          Program.trace ⟨v.display Γ, Γ⟩ ⟨rule, false⟩ fuel' = some (.ok ([v'], none))) ∧
        v'.skeleton = v.skeleton ∧ v'.display Γ = v.display Γ) ∧
    (∀ mode fuel ts τ? u, Program.trace ⟨source, Γ⟩ mode fuel = some (.ok (ts, τ?)) → u ∈ ts →
      ∃ u', Program.term ⟨u.display Γ, Γ⟩ = .ok u' ∧ u'.skeleton = u.skeleton) := by
  refine ⟨?_, ?_, ?_⟩
  · intro fuel v τ hp
    obtain ⟨t, hready, hv⟩ := Program.evaluate_eq_ok_iff.mp hp
    obtain ⟨_, ht, hτ, heq⟩ := Program.ready_checked_eq_ok_iff.mp hready
    cases heq
    obtain ⟨n, _, hrun, hnormal⟩ := Term.evaluate_eq_ok_iff.mp hv
    have hwritable : v.Writable Γ := hrun.writable (Program.term_writable ht)
    obtain ⟨v', hv', hskel, _, hdisplay⟩ := hwritable.display hΓ
    -- The type of the text was kept by the run, and reading back does not touch it.
    have htype : HasType Γ v' τ.eraseSpans :=
      (hrun.hasType (.of_typeOf hτ)).of_skeleton_eq (fun _ => rfl) hskel
    obtain ⟨τ', hτ', hsame⟩ := htype.typeOf_sameAs
    have hready' := Program.ready_checked_eq_ok_iff.mpr ⟨τ', hv', hτ', rfl⟩
    have hnormal' := Term.step_eq_none_of_skeleton_eq hskel hnormal
    exact ⟨v', τ', fun _ hf => Program.evaluate_of_step_eq_none hready' hnormal' hf, hsame, hskel,
      hdisplay⟩
  · intro rule fuel v τ? hp
    obtain ⟨t, hready, hv⟩ := Program.evaluate_eq_ok_iff.mp hp
    obtain ⟨ht, rfl⟩ := Program.ready_unchecked_eq_ok_iff.mp hready
    obtain ⟨n, _, hrun, hnormal⟩ := Term.evaluate_eq_ok_iff.mp hv
    have hwritable : v.Writable Γ := hrun.writable (Program.term_writable ht)
    obtain ⟨v', hv', hskel, _, hdisplay⟩ := hwritable.display hΓ
    have hready' : Program.ready ⟨v.display Γ, Γ⟩ ⟨rule, false⟩ = .ok (v', none) :=
      Program.ready_unchecked_eq_ok_iff.mpr ⟨hv', rfl⟩
    have hnormal' := Term.step_eq_none_of_skeleton_eq hskel hnormal
    exact ⟨v', fun _ hf => Program.evaluate_of_step_eq_none hready' hnormal' hf, hskel, hdisplay⟩
  · intro mode fuel ts τ? u hp hu
    obtain ⟨t, hready, hts⟩ := Program.trace_eq_ok_iff.mp hp
    obtain ⟨n, hrun⟩ := Term.run_of_mem_trace hts hu
    have hwritable : u.Writable Γ :=
      hrun.writable (Program.term_writable (Program.term_of_ready hready))
    obtain ⟨u', hu', hskel, _⟩ := hwritable.display hΓ
    exact ⟨u', hu', hskel⟩

/-- Two abstractions of one name come to be nested, in a context that has the name as well; and a
binder is duplicated by a program that has no type. -/
theorem results_round_trip_moved_binder :
    let Γ : Context := .ofList [.typed "x" (.bool .nowhere)]
    let v : Term := .lam "x" (.bool ⟨19, 23⟩) (.app (.lam "x" (.bool ⟨34, 38⟩) (.var 0 ⟨40, 41⟩)
      ⟨31, 41⟩) (.var 0 ⟨27, 28⟩) ⟨25, 28⟩) ⟨16, 28⟩
    let u : Term := .lam "x" (.bool ⟨28, 32⟩) (.var 0 ⟨34, 35⟩) ⟨25, 35⟩
    let w : Term := .lam "x" (.bool ⟨13, 17⟩) (.app u u ⟨19, 22⟩) ⟨10, 22⟩
    (v.display Γ = "\\x':Bool. (\\x'':Bool. x'') x'" ∧
      (∃ τ, Program.evaluate ⟨"(\\f:Bool->Bool. \\x:Bool. f x) (\\x:Bool. x)", Γ⟩ {} 2 =
        some (.ok (v, some τ))) ∧
      ∃ v' τ', Program.evaluate ⟨v.display Γ, Γ⟩ {} 1 = some (.ok (v', some τ')) ∧
        v'.skeleton = v.skeleton) ∧
    (w.display Γ = "\\x':Bool. (\\x'':Bool. x'') (\\x'':Bool. x'')" ∧
      Program.evaluate ⟨"(\\y:Bool. \\x:Bool. y y) (\\x:Bool. x)", Γ⟩ ⟨.structural, false⟩ 2 =
        some (.ok (w, none)) ∧
      ∃ w', Program.evaluate ⟨w.display Γ, Γ⟩ ⟨.structural, false⟩ 1 = some (.ok (w', none)) ∧
        w'.skeleton = w.skeleton) := by
  intro Γ v u w
  have hΓ : ∀ b ∈ Γ.entries, IsName b.name := by decide
  have hv : Program.evaluate ⟨"(\\f:Bool->Bool. \\x:Bool. f x) (\\x:Bool. x)", Γ⟩ {} 2 =
      some (.ok (v, some (.arrow (.bool ⟨19, 23⟩) (.bool ⟨10, 14⟩) ⟨16, 28⟩))) := by cbv
  have hw : Program.evaluate ⟨"(\\y:Bool. \\x:Bool. y y) (\\x:Bool. x)", Γ⟩
      ⟨.structural, false⟩ 2 = some (.ok (w, none)) := by cbv
  obtain ⟨v', τ', heval, _, hskel, _⟩ := (results_round_trip Γ _ hΓ).1 _ _ _ hv
  obtain ⟨w', heval', hskel', _⟩ := (results_round_trip Γ _ hΓ).2.1 _ _ _ _ hw
  exact ⟨⟨by decide, ⟨_, hv⟩, v', τ', (heval 1 Nat.one_pos).1, hskel⟩,
    by decide, hw, w', (heval' 1 Nat.one_pos).1, hskel'⟩

end Stlc
