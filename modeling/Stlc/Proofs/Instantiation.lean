import Stlc.Proofs.Overflow

/-!
# Instantiation in one pass

`instantiate` makes room under the binder, substitutes, and takes the room back. `Term.unbind` does
the same in one pass that moves every variable to where it belongs: variables of the body from
further out than the binder come one closer, and each copy of the argument goes straight under the
binders that it meets. It is `contract`, written as a recursion on the body.

The three passes use larger indices on the way than the result has. They have room for these exactly
if the argument's indices can be moved by one more than the body nests binders.

The main statement is `one_pass_instantiation`.

## Key lemmas

* `Term.unbind_zero` — the one pass is a contraction.
* `Term.instantiate_isOk_iff` — when there is room for the three passes.
* `Term.instantiate_isOk`, `Term.instantiate_eq_error` — success within bounds that the scope and
  the nesting give, and failure at the top of the range only.
-/

namespace Stlc

namespace Term

/-- The term without the binder that is `k` steps further out, its variable replaced by `u`. Under
the `k` binders in between `u` has its free indices raised by `k`. -/
def unbind (t : Term) (k : Nat) (u : Term) : Term :=
  match t with
  | var i s => if i < k then var i s else if i = k then u.rename (.raise k 0) else var (i - 1) s
  | lam x τ t s => lam x τ (t.unbind (k + 1) u) s
  | app t₁ t₂ s => app (t₁.unbind k u) (t₂.unbind k u) s

end Term

def Substitution.unbinding (k : Nat) (u : Term) : Substitution :=
  fun i s => (Term.var i s).unbind k u

namespace Term

theorem lift_unbinding (k : Nat) (u : Term) :
    (Substitution.unbinding k u).lift = .unbinding (k + 1) u := by
  funext i s
  cases i with
  | zero => rfl
  | succ i =>
      show ((var i s).unbind k u).rename (· + 1) = (var (i + 1) s).unbind (k + 1) u
      simp only [unbind]
      rcases Nat.lt_trichotomy i k with hi | rfl | hi
      · rw [if_pos hi, if_pos (by omega)]
        rfl
      · rw [if_neg (by omega), if_pos rfl, if_neg (by omega), if_pos rfl, rename_rename,
          Renaming.raise_zero, Renaming.raise_zero]
        rfl
      · rw [if_neg (by omega), if_neg (by omega), if_neg (by omega), if_neg (by omega), rename]
        congr 1
        omega

theorem unbind_eq_substAll (t u : Term) (k : Nat) :
    t.unbind k u = t.substAll (.unbinding k u) := by
  induction t generalizing k with
  | var i s => rfl
  | lam x τ t s ih => rw [unbind, substAll, lift_unbinding, ih]
  | app t₁ t₂ s ih₁ ih₂ => rw [unbind, substAll, ih₁, ih₂]

/-- The one pass is a contraction. -/
theorem unbind_zero (t u : Term) : t.unbind 0 u = t.contract u := by
  rw [unbind_eq_substAll, contract]
  congr 1
  funext i s
  cases i with
  | zero =>
      show u.rename (.raise 0 0) = u
      rw [Renaming.raise_zero, rename_eq_substAll]
      exact substAll_var u
  | succ i => rfl

/-- An index of the result is one of the body's, or one of the argument's under some of the binders
of the body. -/
theorem HasIndexPast.of_unbind {t u : Term} {k i : Nat} (h : (t.unbind k u).HasIndexPast k i) :
    t.HasIndexPast k (i + 1) ∨
      ∃ j m, u.HasIndexPast 0 j ∧ m ≤ t.depth ∧ i = j + (k + m) := by
  induction t generalizing k with
  | var j s =>
      rw [unbind] at h
      rcases Nat.lt_trichotomy j k with hj | rfl | hj
      · rw [if_pos hj] at h
        obtain ⟨rfl, hi⟩ := h
        omega
      · rw [if_neg (by omega), if_pos rfl] at h
        obtain ⟨j', hj', rfl⟩ := (hasIndexPast_rename_raise (by omega) (by omega)).mp h
        exact .inr ⟨j', 0, hj', Nat.zero_le _, rfl⟩
      · rw [if_neg (by omega), if_neg (by omega)] at h
        obtain ⟨rfl, hi⟩ := h
        exact .inl ⟨by omega, by omega⟩
  | lam x τ t s ih =>
      rcases ih h with h | ⟨j, m, hj, hm, rfl⟩
      · exact .inl h
      · exact .inr ⟨j, m + 1, hj, Nat.succ_le_succ hm, by omega⟩
  | app t₁ t₂ s ih₁ ih₂ =>
      rcases h with h | h
      · rcases ih₁ h with h | ⟨j, m, hj, hm, rfl⟩
        · exact .inl (.inl h)
        · exact .inr ⟨j, m, hj, hm.trans (Nat.le_max_left ..), rfl⟩
      · rcases ih₂ h with h | ⟨j, m, hj, hm, rfl⟩
        · exact .inl (.inr h)
        · exact .inr ⟨j, m, hj, hm.trans (Nat.le_max_right ..), rfl⟩

/-! ## Success and failure of the three passes -/

/-- The first pass moves the argument's indices once and the second as often as the body nests
binders; the last one only moves them back. -/
theorem instantiate_isOk_iff {t u : Term} (ht : t.InRange) :
    (∃ v, t.instantiate u = .ok v) ↔
      ∀ i, u.HasIndexPast 0 i → i + 1 + t.depth < indexLimit := by
  constructor
  · rintro ⟨v, hv⟩ i hi
    obtain ⟨u', hu, hv⟩ := bind_eq_ok_iff.mp hv
    obtain ⟨t', ht', _⟩ := bind_eq_ok_iff.mp hv
    have hfirst := shift_one_isOk_iff.mp ⟨u', hu⟩ i hi
    rcases Nat.eq_zero_or_pos t.depth with hd | hd
    · omega
    · have hi' : u'.HasIndexPast 0 (i + 1) := (hasIndexPast_of_shift_one hu).mpr ⟨i, hi, rfl⟩
      have := subst_isOk_iff.mp ⟨t', ht'⟩ (i + 1) (t.depth - 1) hi' (by omega)
      omega
  · intro h
    have hfirst : ∀ i, u.HasIndexPast 0 i → i + 1 < indexLimit := by
      intro i hi
      have := h i hi
      omega
    obtain ⟨u', hu⟩ := shift_one_isOk_iff.mpr hfirst
    have hsecond : ∀ j m, u'.HasIndexPast 0 j → m < t.depth → j + m + 1 < indexLimit := by
      intro j m hj hm
      obtain ⟨i, hi, rfl⟩ := (hasIndexPast_of_shift_one hu).mp hj
      have := h i hi
      omega
    obtain ⟨t', ht'⟩ := subst_isOk_iff (k := 0).mpr hsecond
    have hthird : ∀ i, (t.unbind 0 u).HasIndexPast 0 i → i < indexLimit := by
      intro i hi
      rcases hi.of_unbind with hi | ⟨j, m, hj, hm, rfl⟩
      · have := ht _ hi
        omega
      · have := h j hj
        omega
    obtain ⟨v, hv⟩ := shift_neg_one_isOk_iff.mpr hthird
    rw [unbind_zero, ← substAll_single_raise, ← shift_eq_ok (d := 1) hu, ← subst_eq_ok ht'] at hv
    exact ⟨v, bind_eq_ok_iff.mpr ⟨u', hu, bind_eq_ok_iff.mpr ⟨t', ht', hv⟩⟩⟩

theorem instantiate_isOk {t u : Term} {n : Nat} (ht : t.Scoped (n + 1)) (hu : u.Scoped n)
    (hn : n + t.depth + u.depth < indexLimit) : t.instantiate u = .ok (t.contract u) := by
  have hrange : t.InRange := by
    intro i hi
    have := hi.lt_of_scoped ht
    omega
  obtain ⟨v, hv⟩ := (instantiate_isOk_iff hrange).mpr fun i hi => by
    have := hi.lt_of_scoped hu
    omega
  rw [hv, instantiate_eq_ok hv]

/-- The last pass of an instantiation leaves no index out of range. -/
theorem inRange_of_instantiate {t u v : Term} (h : t.instantiate u = .ok v) : v.InRange := by
  obtain ⟨u', _, h⟩ := bind_eq_ok_iff.mp h
  obtain ⟨t', _, h⟩ := bind_eq_ok_iff.mp h
  intro i hi
  exact hi.lt_of_shift h

/-- No pass of an instantiation moves a variable below the range: the last one takes away room that
the first two have made. -/
theorem instantiate_eq_error {t u : Term} {e : ShiftError} (h : t.instantiate u = .error e) :
    e.IsOverflow := by
  rcases bind_eq_error_iff.mp h with h | ⟨u', hu, h⟩
  · exact shift_natCast_eq_error (d := 1) h
  · rcases bind_eq_error_iff.mp h with h | ⟨t', ht, h⟩
    · exact subst_eq_error h
    · rw [subst_eq_ok ht, shift_eq_ok (d := 1) hu, substAll_single_raise] at h
      exact shift_neg_one_eq_error h

end Term

/-- `Term.instantiate` is `shift`, `subst`, `shift` back; `Term.unbind` is one recursion that
keeps spans, names and annotations. They agree iff every free index of `u` has room for
`1 + t.depth` more, which is what the two outward shifts need (`Term.instantiate_isOk_iff`). -/
theorem one_pass_instantiation (t u : Term) (ht : t.InRange) :
    (∀ i, u.HasIndexPast 0 i → i + 1 + t.depth < indexLimit) ↔
      t.instantiate u = .ok (t.unbind 0 u) := by
  rw [← Term.instantiate_isOk_iff ht, Term.unbind_zero]
  constructor
  · rintro ⟨v, hv⟩
    rw [hv, Term.instantiate_eq_ok hv]
  · intro h
    exact ⟨_, h⟩

/-- Body and argument have a binder each, and a variable from further out; that of the argument has
the last index for which there is room. -/
theorem one_pass_instantiation_last_index :
    let bool : Ty := .bool .nowhere
    let var : Nat → Term := (.var · .nowhere)
    let arg : Nat → Term := fun i => .lam "c" bool (.app (var i) (var 0) ⟨4, 7⟩) ⟨1, 7⟩
    let body : Term := .lam "b" bool (.app (.app (var 0) (var 1) ⟨8, 11⟩) (var 3) ⟨8, 13⟩) ⟨5, 13⟩
    (∀ i, (arg (indexLimit - 3)).HasIndexPast 0 i → i + 1 + body.depth < indexLimit) ∧
      body.instantiate (arg (indexLimit - 3)) = .ok (.lam "b" bool
        (.app (.app (var 0) (arg (indexLimit - 2)) ⟨8, 11⟩) (var 2) ⟨8, 13⟩) ⟨5, 13⟩) := by
  intro bool var arg body
  have hbody : body.InRange := by
    rintro i ((⟨rfl, _⟩ | ⟨rfl, _⟩) | ⟨rfl, _⟩) <;> decide
  have hroom : ∀ i, (arg (indexLimit - 3)).HasIndexPast 0 i → i + 1 + body.depth < indexLimit := by
    rintro i (⟨rfl, _⟩ | ⟨rfl, _⟩) <;> decide
  exact ⟨hroom, (one_pass_instantiation body _ hbody).mp hroom⟩

end Stlc
