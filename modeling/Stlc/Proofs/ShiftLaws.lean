import Stlc.Proofs.Overflow

/-!
# Laws of shifting

Shifts compose, and a shift outwards can be taken back. Each of these laws is one about a single
index, which two shifts in a row move twice, or one of them does, or none: where the index is,
seen from the cutoffs, decides which (`ShiftsTo`). What holds of every index holds of terms, since
a shift treats each variable by itself (`Term.shift_eq_ok_iff`). The laws say of their two sides
that one succeeds if the other does, as well as that the results are the same.

The main statements are `shift_reports_first_unmovable` and `shift_laws`.

## Key lemmas

* `Term.shift_zero`, `Term.shift_neg` — a shift by nothing, and the way back.
* `Term.shift_shift_iff`, `Term.shift_comm_iff` — two shifts in a row.
-/

namespace Stlc

/-! ## One index -/

namespace ShiftsTo

variable {k i j : Nat}

theorem flip_neg {d c : Nat} (h : ShiftsTo d c k i j) : ShiftsTo (-d) c k j i := by
  unfold ShiftsTo at *
  grind

/-- Two moves are one if the second cutoff lies in the room that the first move has made. -/
theorem trans_iff {d₁ d₂ c c' : Nat} (hc : c ≤ c') (hc' : c' ≤ c + d₁) :
    (∃ l, ShiftsTo d₁ c k i l ∧ ShiftsTo d₂ c' k l j) ↔ ShiftsTo (d₁ + d₂ : Nat) c k i j := by
  simp only [natCast_iff, and_assoc, exists_eq_left']
  unfold Renaming.raise
  by_cases hi : i < c + k
  · grind
  · grind

/-- Of two moves the one that is further out may come first or second. If it comes second, the
other one has moved its cutoff. -/
theorem comm_iff {d₁ d₂ c₁ c₂ : Nat} (hc : c₁ ≤ c₂) :
    (∃ l, ShiftsTo d₂ c₂ k i l ∧ ShiftsTo d₁ c₁ k l j) ↔
      ∃ l, ShiftsTo d₁ c₁ k i l ∧ ShiftsTo d₂ (c₂ + d₁) k l j := by
  simp only [natCast_iff, and_assoc, exists_eq_left']
  unfold Renaming.raise
  rcases Nat.lt_or_ge i (c₁ + k) with hi | hi
  · grind
  · rcases Nat.lt_or_ge i (c₂ + k) with hi' | hi'
    · grind
    · grind

end ShiftsTo

/-! ## All indices of a term -/

namespace Term

theorem shift_zero {t : Term} (h : t.InRange) (c : Nat) : t.shift 0 c = .ok t := by
  apply shift_eq_ok_iff.mpr
  apply renumbers_self
  intro v hv
  unfold ShiftsTo
  split
  · rfl
  · refine ⟨by omega, h v.index ?_⟩
    exact hasIndexPast_iff (k := 0).mpr ⟨v, hv, rfl, by omega⟩

theorem shift_neg {t u : Term} {d c : Nat} (h : t.shift d c = .ok u) :
    u.shift (-d) c = .ok t := by
  rw [shift_eq_ok_iff] at *
  exact h.converse.mono fun _ _ _ hij => hij.flip_neg

theorem shift_shift_iff {t u : Term} {d₁ d₂ c c' : Nat} (hc : c ≤ c') (hc' : c' ≤ c + d₁) :
    (do (← t.shift d₁ c).shift d₂ c') = .ok u ↔ t.shift (d₁ + d₂ : Nat) c = .ok u := by
  rw [bind_eq_ok_iff]
  simp only [shift_eq_ok_iff, renumbers_comp_iff]
  exact renumbers_congr fun _ _ _ => ShiftsTo.trans_iff hc hc'

theorem shift_comm_iff {t u : Term} {d₁ d₂ c₁ c₂ : Nat} (hc : c₁ ≤ c₂) :
    (do (← t.shift d₂ c₂).shift d₁ c₁) = .ok u ↔
      (do (← t.shift d₁ c₁).shift d₂ (c₂ + d₁)) = .ok u := by
  rw [bind_eq_ok_iff, bind_eq_ok_iff]
  simp only [shift_eq_ok_iff, renumbers_comp_iff]
  exact renumbers_congr fun _ _ _ => ShiftsTo.comm_iff hc

end Term

/-- `Term.shift` succeeds iff each variable of `Term.vars` is `IsMovable`, and its result is then
the renumbering `ShiftsTo d c` of `t`. Its error has the index of the first variable, from the
left, that is not, as it stands in `t`, together with `d`. -/
theorem shift_reports_first_unmovable (t : Term) (d : Int) (c : Nat) :
    ((∃ u, t.shift d c = .ok u) ↔ ∀ v ∈ t.vars 0, v.IsMovable d c) ∧
    (∀ u, t.shift d c = .ok u ↔ Term.Renumbers (ShiftsTo d c) 0 t u) ∧
    (∀ e, t.shift d c = .error e ↔
      ∃ v, IsFirstWithout (Variable.IsMovable d c) (t.vars 0) v ∧ e = ⟨v.index, d⟩) := by
  have hok : (∃ u, t.shift d c = .ok u) ↔ ∀ v ∈ t.vars 0, v.IsMovable d c :=
    Term.shift_isOk_iff_isMovable (k := 0)
  refine ⟨hok, fun u => Term.shift_eq_ok_iff, fun e => ?_⟩
  let report (v : Variable) (e : ShiftError) : Prop := e = ⟨v.index, d⟩
  show _ ↔ ∃ v, IsFirstWithout _ _ v ∧ report v e
  apply eq_error_iff_isFirstWithout
  · intro u hu
    exact hok.mp ⟨u, hu⟩
  · intro e he
    exact Term.exists_unmovable_of_shift (k := 0) he
  · intro v e e' he he'
    exact Eq.trans he (Eq.symm he')

/-- The first variable and the bound one stay. Of the other two, which are moved, the one on the
left is reported, as it is written; and with a cutoff further out only that one is moved. -/
example :
    let bool : Ty := .bool .nowhere
    let t : Nat → Term := fun i => .app (.var 0 ⟨0, 1⟩) (.lam "x" bool
      (.app (.var 0 ⟨11, 12⟩) (.app (.var i ⟨14, 15⟩) (.var 2 ⟨16, 17⟩) ⟨14, 17⟩) ⟨11, 18⟩)
      ⟨3, 18⟩) ⟨0, 19⟩
    (t 4).shift (-5) 1 = .error ⟨4, -5⟩ ∧ (t 4).shift (-2) 2 = .ok (t 2) :=
  ⟨rfl, rfl⟩

/-- Laws of `Term.shift` at one cutoff: `shift 0` is the identity on terms `InRange`, and
`shift (-d)` undoes `shift d`. Two outward shifts add up for `c ≤ c' ≤ c + d₁`, and for `c₁ ≤ c₂`
they commute with the outer cutoff raised by `d₁`. The last two are equivalences, so neither side
overflows where the other does not. -/
theorem shift_laws :
    (∀ (t : Term) (c : Nat), t.InRange → t.shift 0 c = .ok t) ∧
    (∀ (t u : Term) (d c : Nat), t.shift d c = .ok u → u.shift (-d) c = .ok t) ∧
    (∀ (t u : Term) (d₁ d₂ c c' : Nat), c ≤ c' → c' ≤ c + d₁ →
      ((do (← t.shift d₁ c).shift d₂ c') = .ok u ↔ t.shift (d₁ + d₂ : Nat) c = .ok u)) ∧
    (∀ (t u : Term) (d₁ d₂ c₁ c₂ : Nat), c₁ ≤ c₂ →
      ((do (← t.shift d₂ c₂).shift d₁ c₁) = .ok u ↔
        (do (← t.shift d₁ c₁).shift d₂ (c₂ + d₁)) = .ok u)) :=
  ⟨fun _ c ht => Term.shift_zero ht c, fun _ _ _ _ => Term.shift_neg,
    fun _ _ _ _ _ _ => Term.shift_shift_iff, fun _ _ _ _ _ _ => Term.shift_comm_iff⟩

/-- The laws at a term with a bound variable, one that a cutoff leaves alone, and one with the last
index for which there is room. -/
theorem shift_laws_last_index :
    let bool : Ty := .bool .nowhere
    let t : Nat → Nat → Term := fun i j => .lam "x" bool
      (.app (.app (.var 0 .nowhere) (.var i .nowhere) .nowhere) (.var j .nowhere) .nowhere) .nowhere
    (t 1 (indexLimit - 1)).shift 0 1 = .ok (t 1 (indexLimit - 1)) ∧
    (t 1 (indexLimit - 1)).shift (-5) 1 = .ok (t 1 (indexLimit - 6)) ∧
    (t 1 (indexLimit - 6)).shift 5 1 = .ok (t 1 (indexLimit - 1)) ∧
    (do (← (t 1 (indexLimit - 6)).shift 2 1).shift 3 2) = .ok (t 1 (indexLimit - 1)) ∧
    (do (← (t 1 (indexLimit - 6)).shift 2 0).shift 3 3) = .ok (t 3 (indexLimit - 1)) := by
  intro bool t
  obtain ⟨hzero, hneg, hshift, hcomm⟩ := shift_laws
  have hrange : (t 1 (indexLimit - 1)).InRange := by
    rintro i ((⟨rfl, _⟩ | ⟨rfl, _⟩) | ⟨rfl, _⟩) <;> decide
  have hfive : (t 1 (indexLimit - 6)).shift 5 1 = .ok (t 1 (indexLimit - 1)) := rfl
  have hinner : (do (← (t 1 (indexLimit - 6)).shift 3 1).shift 2 0) =
      .ok (t 3 (indexLimit - 1)) := rfl
  exact ⟨hzero _ 1 hrange, hneg _ _ 5 1 hfive, hfive,
    (hshift _ _ 2 3 1 2 (by decide) (by decide)).mpr hfive,
    (hcomm _ _ 2 3 0 1 (by decide)).mp hinner⟩

end Stlc
