import Stlc.Proofs.First
import Stlc.Proofs.Substitution

/-!
# Renumbering

A shift moves the variables that count past its cutoff and changes nothing else. What becomes of a
variable depends on its index and on the number of abstractions around it, and not on the rest of
the term. So a shift is a relation between indices (`ShiftsTo`) that is applied to all variables of
a term at once (`Term.Renumbers`), and renumbering twice is renumbering by the composition.

A shift fails at the first variable, from the left, that has no index to go to.

## Key lemmas

* `Term.shift_eq_ok_iff` — a shift renumbers, and it succeeds if there is anything to renumber to.
* `Term.shift_isOk_iff_isMovable`, `Term.exists_unmovable_of_shift` — when a shift fails, and which
  variable the failure is about.
* `Term.renumbers_comp_iff`, `Term.Renumbers.converse` — renumbering twice, and back.
-/

namespace Stlc

/-! ## The variables of a term -/

/-- A variable of a term: its index, as it is written, and the number of abstractions around it. -/
structure Variable where
  binders : Nat
  index : Nat
deriving DecidableEq

namespace Variable

/-- A shift by `d` behind the first `c` variables does not take the variable out of range. Those
that count past `c` variables and all abstractions around them are moved; the others stay. -/
def IsMovable (d : Int) (c : Nat) (v : Variable) : Prop :=
  c + v.binders ≤ v.index → 0 ≤ v.index + d ∧ v.index + d < indexLimit

end Variable

namespace Term

/-- The variables of a term that stands under `k` abstractions, from the left. -/
def vars (k : Nat) : Term → List Variable
  | var i _ => [⟨k, i⟩]
  | lam _ _ t _ => t.vars (k + 1)
  | app t u _ => t.vars k ++ u.vars k

/-! ## Renumbering -/

/-- The two terms differ in their indices only. Where the first has the index `i` under `k`
abstractions, the second has a `j` with `R k i j`. -/
inductive Renumbers (R : Nat → Nat → Nat → Prop) : Nat → Term → Term → Prop where
  | var {k i j s} : R k i j → Renumbers R k (var i s) (var j s)
  | lam {k x τ t u s} : Renumbers R (k + 1) t u → Renumbers R k (lam x τ t s) (lam x τ u s)
  | app {k t₁ t₂ u₁ u₂ s} : Renumbers R k t₁ u₁ → Renumbers R k t₂ u₂ →
      Renumbers R k (app t₁ t₂ s) (app u₁ u₂ s)

variable {R S : Nat → Nat → Nat → Prop} {k : Nat}

theorem renumbers_var_iff {i : Nat} {s : Span} {u : Term} :
    Renumbers R k (var i s) u ↔ ∃ j, R k i j ∧ var j s = u := by
  constructor
  · intro h
    cases h with
    | var hij => exact ⟨_, hij, rfl⟩
  · intro h
    obtain ⟨j, hij, rfl⟩ := h
    exact .var hij

theorem renumbers_lam_iff {x : String} {τ : Ty} {t u : Term} {s : Span} :
    Renumbers R k (lam x τ t s) u ↔ ∃ t', Renumbers R (k + 1) t t' ∧ lam x τ t' s = u := by
  constructor
  · intro h
    cases h with
    | lam h => exact ⟨_, h, rfl⟩
  · intro h
    obtain ⟨t', h, rfl⟩ := h
    exact .lam h

theorem renumbers_app_iff {t₁ t₂ u : Term} {s : Span} :
    Renumbers R k (app t₁ t₂ s) u ↔
      ∃ u₁ u₂, Renumbers R k t₁ u₁ ∧ Renumbers R k t₂ u₂ ∧ app u₁ u₂ s = u := by
  constructor
  · intro h
    cases h with
    | app h₁ h₂ => exact ⟨_, _, h₁, h₂, rfl⟩
  · intro h
    obtain ⟨u₁, u₂, h₁, h₂, rfl⟩ := h
    exact .app h₁ h₂

theorem Renumbers.mono {t u : Term} (h : Renumbers R k t u) (hRS : ∀ k i j, R k i j → S k i j) :
    Renumbers S k t u := by
  induction h with
  | var hij => exact .var (hRS _ _ _ hij)
  | lam _ ih => exact .lam ih
  | app _ _ ih₁ ih₂ => exact .app ih₁ ih₂

theorem renumbers_congr {t u : Term} (h : ∀ k i j, R k i j ↔ S k i j) :
    Renumbers R k t u ↔ Renumbers S k t u :=
  ⟨fun htu => htu.mono fun k i j => (h k i j).mp, fun htu => htu.mono fun k i j => (h k i j).mpr⟩

theorem renumbers_self {t : Term} (h : ∀ v ∈ t.vars k, R v.binders v.index v.index) :
    Renumbers R k t t := by
  induction t generalizing k with
  | var i s => exact .var (h ⟨k, i⟩ List.mem_cons_self)
  | lam x τ t s ih => exact .lam (ih h)
  | app t u s iht ihu =>
      simp only [vars, List.forall_mem_append] at h
      exact .app (iht h.1) (ihu h.2)

theorem Renumbers.converse {t u : Term} (h : Renumbers R k t u) :
    Renumbers (fun k i j => R k j i) k u t := by
  induction h with
  | var hij => exact .var hij
  | lam _ ih => exact .lam ih
  | app _ _ ih₁ ih₂ => exact .app ih₁ ih₂

/-- Renumbering twice renumbers by the composition. -/
theorem renumbers_comp_iff {t u : Term} :
    (∃ m, Renumbers R k t m ∧ Renumbers S k m u) ↔
      Renumbers (fun k i j => ∃ l, R k i l ∧ S k l j) k t u := by
  constructor
  · intro h
    obtain ⟨m, htm, hmu⟩ := h
    induction htm generalizing u with
    | var hil =>
        cases hmu with
        | var hlj => exact .var ⟨_, hil, hlj⟩
    | lam _ ih =>
        cases hmu with
        | lam hmu => exact .lam (ih hmu)
    | app _ _ ih₁ ih₂ =>
        cases hmu with
        | app hmu₁ hmu₂ => exact .app (ih₁ hmu₁) (ih₂ hmu₂)
  · intro h
    induction h with
    | var hij =>
        obtain ⟨l, hil, hlj⟩ := hij
        exact ⟨_, .var hil, .var hlj⟩
    | lam _ ih =>
        obtain ⟨m, htm, hmu⟩ := ih
        exact ⟨_, .lam htm, .lam hmu⟩
    | app _ _ ih₁ ih₂ =>
        obtain ⟨m₁, htm₁, hmu₁⟩ := ih₁
        obtain ⟨m₂, htm₂, hmu₂⟩ := ih₂
        exact ⟨_, .app htm₁ htm₂, .app hmu₁ hmu₂⟩

/-- A term can be renumbered if each of its variables can. -/
theorem exists_renumbers_iff {t : Term} :
    (∃ u, Renumbers R k t u) ↔ ∀ v ∈ t.vars k, ∃ j, R v.binders v.index j := by
  induction t generalizing k with
  | var i s => simp [renumbers_var_iff, vars]
  | lam x τ t s ih =>
      rw [vars, ← ih]
      simp [renumbers_lam_iff]
  | app t₁ t₂ s ih₁ ih₂ =>
      rw [vars, List.forall_mem_append, ← ih₁, ← ih₂]
      simp [renumbers_app_iff]

end Term

/-! ## Shifts -/

/-- What a shift by `d` behind the first `c` variables does to an index under `k` abstractions. -/
def ShiftsTo (d : Int) (c k i j : Nat) : Prop :=
  if i < c + k then j = i else (j : Int) = i + d ∧ j < indexLimit

namespace ShiftsTo

variable {c k i j : Nat}

theorem exists_iff {d : Int} :
    (∃ j, ShiftsTo d c k i j) ↔ (⟨k, i⟩ : Variable).IsMovable d c := by
  unfold ShiftsTo Variable.IsMovable
  dsimp only
  by_cases hi : i < c + k
  · simp only [if_pos hi, exists_eq, true_iff]
    omega
  · simp only [if_neg hi]
    constructor
    · intro h _
      obtain ⟨j, hj⟩ := h
      omega
    · intro h
      refine ⟨(i + d).toNat, ?_⟩
      omega

/-- A shift outwards makes room, as long as there are indices left. -/
theorem natCast_iff {d : Nat} : ShiftsTo d c k i j ↔
    Renaming.raise d (c + k) i = j ∧ (c + k ≤ i → i + d < indexLimit) := by
  unfold ShiftsTo Renaming.raise
  split <;> omega

end ShiftsTo

namespace Term

theorem shift_add_eq_ok_iff {t u : Term} {d : Int} {c k : Nat} :
    t.shift d (c + k) = .ok u ↔ Renumbers (ShiftsTo d c) k t u := by
  induction t generalizing k u with
  | var i s =>
      rw [renumbers_var_iff, shift]
      unfold ShiftsTo
      by_cases hi : i < c + k
      · simp [hi]
      · simp only [if_neg hi, ← shiftIndex_eq_some_iff]
        cases shiftIndex i d with
        | none => simp
        | some j => simp
  | lam x τ t s ih =>
      rw [shift, bind_pure_eq_ok_iff, renumbers_lam_iff]
      exact exists_congr fun t' => and_congr_left' (ih (k := k + 1))
  | app t₁ t₂ s ih₁ ih₂ =>
      rw [shift, bind_bind_pure_eq_ok_iff, renumbers_app_iff]
      simp only [ih₁, ih₂]

/-- A shift renumbers, and it succeeds if there is anything to renumber to. -/
theorem shift_eq_ok_iff {t u : Term} {d : Int} {c : Nat} :
    t.shift d c = .ok u ↔ Renumbers (ShiftsTo d c) 0 t u := shift_add_eq_ok_iff (k := 0)

theorem shift_isOk_iff_isMovable {t : Term} {d : Int} {c k : Nat} :
    (∃ u, t.shift d (c + k) = .ok u) ↔ ∀ v ∈ t.vars k, v.IsMovable d c := by
  simp only [shift_add_eq_ok_iff, exists_renumbers_iff, ShiftsTo.exists_iff]

/-- A shift that fails does so at the first variable that cannot be moved. -/
theorem exists_unmovable_of_shift {t : Term} {d : Int} {c k : Nat} {e : ShiftError}
    (h : t.shift d (c + k) = .error e) :
    ∃ v, IsFirstWithout (Variable.IsMovable d c) (t.vars k) v ∧ e = ⟨v.index, d⟩ := by
  induction t generalizing k with
  | var i s =>
      have hfail : ¬ (⟨k, i⟩ : Variable).IsMovable d c := by
        intro hmovable
        have hvars : ∀ v ∈ (var i s).vars k, v.IsMovable d c :=
          List.forall_mem_singleton.mpr hmovable
        obtain ⟨u, hu⟩ := shift_isOk_iff_isMovable.mpr hvars
        rw [hu] at h
        cases h
      refine ⟨_, .singleton hfail, ?_⟩
      unfold shift at h
      split at h
      · cases h
      · split at h
        · cases h
        · cases h
          rfl
  | lam x τ t s ih => exact ih (k := k + 1) (bind_pure_eq_error_iff.mp h)
  | app t u s iht ihu =>
      rcases bind_bind_pure_eq_error_iff.mp h with h | ⟨hok, h⟩
      · obtain ⟨v, hv, he⟩ := iht h
        exact ⟨v, hv.append_left _, he⟩
      · obtain ⟨v, hv, he⟩ := ihu h
        exact ⟨v, hv.append_right (shift_isOk_iff_isMovable.mp hok), he⟩

end Term

end Stlc
