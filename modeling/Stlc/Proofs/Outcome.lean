import Mathlib

/-!
# Successful and failed computations

What it takes for a computation of several stages to succeed, and for it to fail, as one
equivalence for each way in which stages are put together. A recursive pass over a term has one of
two shapes: it goes into one part and puts it back (`bind_pure_eq_ok_iff`), or it goes into two
parts one after the other and puts them together (`bind_bind_pure_eq_ok_iff`).
-/

namespace Stlc

variable {ε ε' α α' β β' γ : Type}

/-- Two stages succeed if the first does, and then the second on what the first gave. -/
theorem bind_eq_ok_iff {x : Except ε α} {f : α → Except ε β} {b : β} :
    x >>= f = .ok b ↔ ∃ a, x = .ok a ∧ f a = .ok b := by
  cases x with
  | error e => simp [bind, Except.bind]
  | ok a => simp [bind, Except.bind]

/-- Two stages fail if the first does, or else the second on what the first gave. -/
theorem bind_eq_error_iff {x : Except ε α} {f : α → Except ε β} {e : ε} :
    x >>= f = .error e ↔ x = .error e ∨ ∃ a, x = .ok a ∧ f a = .error e := by
  cases x with
  | error e => simp [bind, Except.bind]
  | ok a => simp [bind, Except.bind]

@[simp] theorem pure_eq_ok_iff {a b : α} : (pure a : Except ε α) = .ok b ↔ a = b := by
  simp [pure, Except.pure]

@[simp] theorem pure_ne_error {a : α} {e : ε} : (pure a : Except ε α) ≠ .error e := nofun

/-! ## Passes over one part and over two -/

theorem bind_pure_eq_ok_iff {x : Except ε α} {f : α → β} {b : β} :
    (x >>= fun a => pure (f a)) = .ok b ↔ ∃ a, x = .ok a ∧ f a = b := by
  simp only [bind_eq_ok_iff, pure_eq_ok_iff]

theorem bind_pure_eq_error_iff {x : Except ε α} {f : α → β} {e : ε} :
    (x >>= fun a => pure (f a)) = .error e ↔ x = .error e := by
  simp only [bind_eq_error_iff, pure_ne_error, and_false, exists_false, or_false]

theorem bind_bind_pure_eq_ok_iff {x : Except ε α} {y : Except ε β} {f : α → β → γ} {c : γ} :
    (x >>= fun a => y >>= fun b => pure (f a b)) = .ok c ↔
      ∃ a b, x = .ok a ∧ y = .ok b ∧ f a b = c := by
  simp only [bind_eq_ok_iff, pure_eq_ok_iff]
  constructor
  · rintro ⟨a, ha, b, hb, hc⟩
    exact ⟨a, b, ha, hb, hc⟩
  · rintro ⟨a, b, ha, hb, hc⟩
    exact ⟨a, ha, b, hb, hc⟩

/-- What matters for the success of two stages is the second on what the first gives. -/
theorem exists_bind_eq_ok_iff {x : Except ε α} {f : α → Except ε β} :
    (∃ b, x >>= f = .ok b) ↔ ∃ a, x = .ok a ∧ ∃ b, f a = .ok b := by
  simp only [bind_eq_ok_iff]
  constructor
  · rintro ⟨b, a, ha, hb⟩
    exact ⟨a, ha, b, hb⟩
  · rintro ⟨a, ha, b, hb⟩
    exact ⟨b, a, ha, hb⟩

theorem exists_bind_pure_eq_ok_iff {x : Except ε α} {f : α → β} :
    (∃ b, (x >>= fun a => pure (f a)) = .ok b) ↔ ∃ a, x = .ok a := by
  simp only [exists_bind_eq_ok_iff, pure_eq_ok_iff, exists_eq', and_true]

theorem exists_bind_bind_pure_eq_ok_iff {x : Except ε α} {y : Except ε β} {f : α → β → γ} :
    (∃ c, (x >>= fun a => y >>= fun b => pure (f a b)) = .ok c) ↔
      (∃ a, x = .ok a) ∧ ∃ b, y = .ok b := by
  simp only [exists_bind_eq_ok_iff, pure_eq_ok_iff, exists_eq', and_true, exists_and_right]

/-- Two parts fail if the first does, or else the second. -/
theorem bind_bind_pure_eq_error_iff {x : Except ε α} {y : Except ε β} {f : α → β → γ} {e : ε} :
    (x >>= fun a => y >>= fun b => pure (f a b)) = .error e ↔
      x = .error e ∨ (∃ a, x = .ok a) ∧ y = .error e := by
  simp only [bind_eq_error_iff, pure_ne_error, and_false, exists_false, or_false,
    exists_and_right]

theorem error_of_bind_bind_pure {x : Except ε α} {y : Except ε β} {f : α → β → γ} {e : ε}
    (h : (x >>= fun a => y >>= fun b => pure (f a b)) = .error e) :
    x = .error e ∨ y = .error e :=
  (bind_bind_pure_eq_error_iff.mp h).imp_right And.right

/-! ## Results and errors put into other terms -/

theorem map_eq_ok_iff {x : Except ε α} {f : α → β} {b : β} :
    x.map f = .ok b ↔ ∃ a, x = .ok a ∧ f a = b := by
  cases x with
  | error e => simp [Except.map]
  | ok a => simp [Except.map]

theorem mapError_eq_ok_iff {x : Except ε α} {f : ε → ε'} {a : α} :
    x.mapError f = .ok a ↔ x = .ok a := by
  cases x with
  | error e => simp [Except.mapError]
  | ok a => simp [Except.mapError]

theorem mapError_eq_error_iff {x : Except ε α} {f : ε → ε'} {e : ε'} :
    x.mapError f = .error e ↔ ∃ e', x = .error e' ∧ f e' = e := by
  cases x with
  | error e' => simp [Except.mapError]
  | ok a => simp [Except.mapError]

theorem map_eq_error_iff {x : Except ε α} {f : α → β} {e : ε} :
    x.map f = .error e ↔ x = .error e := by
  cases x with
  | error e' => simp [Except.map]
  | ok a => simp [Except.map]

/-- Errors may be put into other terms stage by stage. -/
theorem mapError_bind (x : Except ε α) (f : α → Except ε β) (g : ε → ε') :
    (x >>= f).mapError g = x.mapError g >>= fun a => (f a).mapError g := by
  cases x with
  | error e => rfl
  | ok a => rfl

/-- Results may be put into other terms stage by stage, if the second stage goes along with that. -/
theorem map_bind_of_forall {x : Except ε α} {f : α → Except ε β} {f' : α' → Except ε β'}
    {g : α → α'} {h : β → β'} (hf : ∀ a, f' (g a) = (f a).map h) :
    x.map g >>= f' = (x >>= f).map h := by
  cases x with
  | error e => rfl
  | ok a => exact hf a

theorem map_mapError_bind_of_forall {x : Except ε α} {f : α → Except ε β}
    {f' : α' → Except ε' β'} {k : ε → ε'} {g : α → α'} {h : β → β'}
    (hf : ∀ a, f' (g a) = ((f a).mapError k).map h) :
    (x.mapError k).map g >>= f' = ((x >>= f).mapError k).map h := by
  rw [mapError_bind]
  exact map_bind_of_forall hf

end Stlc
