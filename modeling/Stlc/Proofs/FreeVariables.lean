import Stlc.Proofs.Substitution

/-!
# Free variables, nesting and names

Which variables of a term are free, how deep its abstractions nest and which names its binders
carry, and what renaming and substitution do to the variables and to the names.

## Key lemmas

* `Term.HasFree.of_substAll`, `Term.HasFree.substAll` — the free variables of what is put in are
  those of the result, and no others are.
* `Term.substAll_congr` — what a substitution has for other variables does not matter.
* `Term.HasFree.of_contract` — a contraction frees no variable.
-/

namespace Stlc

namespace Term

/-! ## Free variables -/

/-- The variable `j` of the context occurs. -/
def HasFree : Term → Nat → Prop
  | var i _, j => i = j
  | lam _ _ t _, j => t.HasFree (j + 1)
  | app t u _, j => t.HasFree j ∨ u.HasFree j

/-- Only the first `n` variables of the context occur. -/
def Scoped (n : Nat) (t : Term) : Prop := ∀ j, t.HasFree j → j < n

@[simp] theorem scoped_var (n i : Nat) (s : Span) : (var i s).Scoped n ↔ i < n := by
  simp [Scoped, HasFree]

@[simp] theorem scoped_lam (n : Nat) (x : String) (τ : Ty) (t : Term) (s : Span) :
    (lam x τ t s).Scoped n ↔ t.Scoped (n + 1) := by
  constructor
  · intro h j hj
    cases j with
    | zero => omega
    | succ j => exact Nat.succ_lt_succ (h j hj)
  · intro h j hj
    exact Nat.lt_of_succ_lt_succ (h (j + 1) hj)

@[simp] theorem scoped_app (n : Nat) (t u : Term) (s : Span) :
    (app t u s).Scoped n ↔ t.Scoped n ∧ u.Scoped n := by
  constructor
  · intro h
    exact ⟨fun j hj => h j (.inl hj), fun j hj => h j (.inr hj)⟩
  · rintro ⟨ht, hu⟩ j (hj | hj)
    · exact ht j hj
    · exact hu j hj

theorem hasFree_rename {t : Term} {ρ : Renaming} {j : Nat} :
    (t.rename ρ).HasFree j ↔ ∃ i, t.HasFree i ∧ ρ i = j := by
  induction t generalizing ρ j with
  | var i s => simp [rename, HasFree]
  | lam x τ t s ih =>
      simp only [rename, HasFree, ih]
      constructor
      · rintro ⟨_ | i, hi, hij⟩
        · cases hij
        · exact ⟨i, hi, Nat.succ_inj.mp hij⟩
      · rintro ⟨i, hi, rfl⟩
        exact ⟨i + 1, hi, rfl⟩
  | app t u s iht ihu => grind [rename, HasFree]

theorem HasFree.of_substAll {t : Term} {σ : Substitution} {j : Nat} (h : (t.substAll σ).HasFree j) :
    ∃ i s, t.HasFree i ∧ (σ i s).HasFree j := by
  induction t generalizing σ j with
  | var i s => exact ⟨i, s, rfl, h⟩
  | lam x τ t s ih =>
      -- For the bound variable a lifted substitution has that variable, which is not free.
      obtain ⟨_ | i, s', hi, hj⟩ := ih h
      · cases hj
      · obtain ⟨k, hk, hkj⟩ := hasFree_rename.mp hj
        cases hkj
        exact ⟨i, s', hi, hk⟩
  | app t u s iht ihu =>
      rcases h with h | h
      · obtain ⟨i, s', hi, hj⟩ := iht h
        exact ⟨i, s', .inl hi, hj⟩
      · obtain ⟨i, s', hi, hj⟩ := ihu h
        exact ⟨i, s', .inr hi, hj⟩

/-- What is put in the place of a free variable keeps its own free variables. -/
theorem HasFree.substAll {t : Term} {σ : Substitution} {i j : Nat} (h : t.HasFree i)
    (hσ : ∀ s, (σ i s).HasFree j) : (t.substAll σ).HasFree j := by
  induction t generalizing σ i j with
  | var k s =>
      cases h
      exact hσ s
  | lam x τ t s ih =>
      apply ih h
      intro s'
      exact hasFree_rename.mpr ⟨j, hσ s', rfl⟩
  | app t u s iht ihu => exact h.imp (iht · hσ) (ihu · hσ)

theorem Scoped.rename_raise {t : Term} {n d c : Nat} (h : t.Scoped n) :
    (t.rename (.raise d c)).Scoped (n + d) := by
  intro j hj
  obtain ⟨i, hi, rfl⟩ := hasFree_rename.mp hj
  have := h i hi
  unfold Renaming.raise
  split <;> omega

/-- Only what a substitution has for the free variables matters. -/
theorem substAll_congr {t : Term} {σ θ : Substitution} (h : ∀ i s, t.HasFree i → σ i s = θ i s) :
    t.substAll σ = t.substAll θ := by
  induction t generalizing σ θ with
  | var i s => exact h i s rfl
  | lam x τ t s ih =>
      have hlift : ∀ i s, t.HasFree i → σ.lift i s = θ.lift i s := by
        intro i s hi
        cases i with
        | zero => rfl
        | succ i => exact congrArg (rename (· + 1)) (h i s hi)
      rw [substAll, substAll, ih hlift]
  | app t u s iht ihu =>
      rw [substAll, substAll, iht fun i s hi => h i s (.inl hi),
        ihu fun i s hi => h i s (.inr hi)]

/-- A contraction frees no variable. -/
theorem HasFree.of_contract {t u : Term} {j : Nat} (h : (t.contract u).HasFree j) :
    t.HasFree (j + 1) ∨ u.HasFree j := by
  obtain ⟨_ | i, s, hi, hj⟩ := HasFree.of_substAll h
  · exact .inr hj
  · cases hj
    exact .inl hi

/-! ## Nesting -/

/-- How many abstractions there are around a variable, at most. -/
def depth : Term → Nat
  | var .. => 0
  | lam _ _ t _ => t.depth + 1
  | app t u _ => max t.depth u.depth

def lams : Term → Nat
  | var .. => 0
  | lam _ _ t _ => t.lams + 1
  | app t u _ => t.lams + u.lams

theorem depth_le_lams (t : Term) : t.depth ≤ t.lams := by
  induction t with
  | var i s => exact Nat.le_refl 0
  | lam x τ t s ih => exact Nat.succ_le_succ ih
  | app t u s iht ihu =>
      simp only [depth, lams]
      omega

@[simp] theorem depth_rename (t : Term) (ρ : Renaming) : (t.rename ρ).depth = t.depth := by
  induction t generalizing ρ with
  | var i s => rfl
  | lam x τ t s ih => simp only [rename, depth, ih]
  | app t u s iht ihu => simp only [rename, depth, iht, ihu]

theorem depth_substAll_le {t : Term} {σ : Substitution} {k : Nat} (h : ∀ i s, (σ i s).depth ≤ k) :
    (t.substAll σ).depth ≤ t.depth + k := by
  induction t generalizing σ with
  | var i s =>
      have := h i s
      simp only [substAll, depth]
      omega
  | lam x τ t s ih =>
      have hlift : ∀ i s, (σ.lift i s).depth ≤ k := by
        intro i s
        cases i with
        | zero => exact Nat.zero_le k
        | succ i => exact (depth_rename ..).trans_le (h i s)
      have := ih hlift
      simp only [substAll, depth]
      omega
  | app t u s iht ihu =>
      have := iht h
      have := ihu h
      simp only [substAll, depth]
      omega

theorem depth_contract_le (t u : Term) : (t.contract u).depth ≤ t.depth + u.depth := by
  apply depth_substAll_le
  intro i s
  cases i with
  | zero => exact Nat.le_refl _
  | succ i => exact Nat.zero_le _

/-! ## The names that binders carry -/

def binders : Term → List String
  | var .. => []
  | lam x _ t _ => x :: t.binders
  | app t u _ => t.binders ++ u.binders

@[simp] theorem binders_rename (t : Term) (ρ : Renaming) : (t.rename ρ).binders = t.binders := by
  induction t generalizing ρ with
  | var i s => rfl
  | lam x τ t s ih => simp only [rename, binders, ih]
  | app t u s iht ihu => simp only [rename, binders, iht, ihu]

theorem mem_binders_substAll {t : Term} {σ : Substitution} {x : String}
    (h : x ∈ (t.substAll σ).binders) : x ∈ t.binders ∨ ∃ i s, x ∈ (σ i s).binders := by
  induction t generalizing σ with
  | var i s => exact .inr ⟨i, s, h⟩
  | lam y τ t s ih =>
      rcases List.mem_cons.mp h with rfl | h
      · exact .inl List.mem_cons_self
      · rcases ih h with h | ⟨_ | i, s', h⟩
        · exact .inl (List.mem_cons_of_mem y h)
        · cases h
        · exact .inr ⟨i, s', by simpa [Substitution.lift] using h⟩
  | app t u s iht ihu =>
      rcases List.mem_append.mp h with h | h
      · exact (iht h).imp_left (List.mem_append_left _)
      · exact (ihu h).imp_left (List.mem_append_right _)

/-- A contraction invents no name. -/
theorem mem_binders_contract {t u : Term} {x : String} (h : x ∈ (t.contract u).binders) :
    x ∈ t.binders ∨ x ∈ u.binders := by
  rcases mem_binders_substAll h with h | ⟨_ | i, s, h⟩
  · exact .inl h
  · exact .inr h
  · cases h

end Term

end Stlc
