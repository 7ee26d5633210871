import Stlc.Proofs.FreeVariables
import Stlc.Proofs.Printing
import Stlc.Resolve

/-!
# Writing nameless terms with names

Writing a nameless term is choosing names and printing: `Term.named` chooses the names, if every
free variable has one that leads back to it, and `Term.write` prints what they make
(`Term.write_of_named`). Resolving the named expression gives the term again, with the binders
called what they were called in print (`Term.resolveIn_of_named`): that term is `Term.refresh`.

A free variable without such a name leaves a mark in the text, and no text with that mark is
scanned to its end (`Term.parse_write_of_not_named`).
-/

namespace Stlc

/-! ## Fresh names -/

/-- As many names as there are of the length of `x` or longer, leaving `x` out. -/
theorem countP_longer_lt {taken : List String} {x : String} (hx : x ∈ taken) :
    taken.countP (x.length < ·.length) < taken.countP (x.length ≤ ·.length) := by
  obtain ⟨as, bs, rfl⟩ := List.append_of_mem hx
  have hle : ∀ l : List String,
      l.countP (x.length < ·.length) ≤ l.countP (x.length ≤ ·.length) := by
    intro l
    refine List.countP_mono_left fun y _ hy => ?_
    simp only [decide_eq_true_eq] at hy ⊢
    omega
  have has := hle as
  have hbs := hle bs
  simp only [List.countP_append, List.countP_cons, Nat.lt_irrefl, Nat.le_refl, decide_true,
    decide_false, if_true, Bool.false_eq_true, if_false]
  omega

theorem freshName.go_not_mem {taken : List String} {n : Nat} {x : String}
    (h : taken.countP (x.length ≤ ·.length) ≤ n) : go taken n x ∉ taken := by
  induction n generalizing x with
  | zero =>
      intro hx
      have hpos : 0 < taken.countP (x.length ≤ ·.length) :=
        List.countP_pos_iff.mpr ⟨x, hx, decide_eq_true (Nat.le_refl x.length)⟩
      omega
  | succ n ih =>
      rw [go]
      split
      · next hx =>
          -- Each prime that is put on leaves behind a name that is taken.
          apply ih
          have hlt := countP_longer_lt hx
          have hprime : (x ++ "'").length = x.length + 1 := String.length_append x "'"
          rw [hprime]
          exact Nat.le_of_lt_succ (Nat.lt_of_lt_of_le hlt h)
      · next hx => exact hx

theorem freshName_not_mem (taken : List String) (x : String) : freshName taken x ∉ taken :=
  freshName.go_not_mem List.countP_le_length

theorem freshName_of_not_mem {taken : List String} {x : String} (h : x ∉ taken) :
    freshName taken x = x := by
  unfold freshName
  cases taken.length with
  | zero => rfl
  | succ n => rw [freshName.go, if_neg h]

theorem freshName_freshName (taken : List String) (x : String) :
    freshName taken (freshName taken x) = freshName taken x :=
  freshName_of_not_mem (freshName_not_mem taken x)

/-- A fresh name is a name with primes. -/
theorem IsName.freshName {x : String} (h : IsName x) (taken : List String) :
    IsName (freshName taken x) := by
  unfold Stlc.freshName
  generalize taken.length = n
  induction n generalizing x with
  | zero => exact h
  | succ n ih =>
      rw [freshName.go]
      split
      · exact ih h.prime
      · exact h

namespace Term

/-! ## Names that lead back -/

theorem nameIn?_eq_some_iff {scope : Stack String} {i : Nat} {x : String} :
    nameIn? scope i = some x ↔ scope.findIdx? (· == x) = some i := by
  simp only [nameIn?, Option.bind_eq_bind, Option.bind_eq_some_iff, guard]
  constructor
  · rintro ⟨y, _, _, hguard, h⟩
    cases h
    split at hguard
    · next h => exact h
    · cases hguard
  · intro h
    obtain ⟨hi, hx, _⟩ := List.findIdx?_eq_some_iff_getElem.mp h
    have hget : scope.get? i = some x := by
      rw [Stack.get?, List.getElem?_eq_getElem hi, eq_of_beq hx]
    exact ⟨x, hget, (), if_pos h, rfl⟩

theorem nameIn?_push_zero (scope : Stack String) (x : String) :
    nameIn? (scope.push x) 0 = some x := by
  rw [nameIn?_eq_some_iff, Stack.findIdx?_push, if_pos (beq_self_eq_true x)]

theorem nameIn?_push_succ {scope : Stack String} {x : String} (hx : x ∉ scope.entries) (i : Nat) :
    nameIn? (scope.push x) (i + 1) = nameIn? scope i := by
  ext y
  rw [nameIn?_eq_some_iff, nameIn?_eq_some_iff, Stack.findIdx?_push]
  by_cases hxy : x = y
  · subst hxy
    simp [Stack.findIdx?_eq_none_iff.mpr hx]
  · simp [hxy]

theorem nameIn?_of_push {scope : Stack String} {x y : String} {i : Nat}
    (h : nameIn? (scope.push x) (i + 1) = some y) : nameIn? scope i = some y := by
  rw [nameIn?_eq_some_iff, Stack.findIdx?_push] at h
  split at h
  · cases h
  · rw [nameIn?_eq_some_iff]
    simpa using h

theorem mem_entries_of_nameIn? {scope : Stack String} {i : Nat} {x : String}
    (h : nameIn? scope i = some x) : x ∈ scope.entries := by
  obtain ⟨hi, hx, _⟩ := List.findIdx?_eq_some_iff_getElem.mp (nameIn?_eq_some_iff.mp h)
  rw [← eq_of_beq hx]
  exact List.getElem_mem hi

/-! ## Choosing names -/

/-- The expression that is printed for a term, if every free variable has a name that leads back to
it. -/
def named (scope : Stack String) : Term → Option Expr
  | var i s => (nameIn? scope i).map fun x => .var x s
  | lam x τ t s =>
    let x := freshName scope.entries x
    (t.named (scope.push x)).map fun e => .lam x τ e s
  | app t u s =>
    (t.named scope).bind fun e => (u.named scope).map fun f => .app e f s

/-- The term with its binders called what they are called in print. -/
def refresh (scope : Stack String) : Term → Term
  | var i s => var i s
  | lam x τ t s =>
    let x := freshName scope.entries x
    lam x τ (t.refresh (scope.push x)) s
  | app t u s => app (t.refresh scope) (u.refresh scope) s

theorem named_isSome_iff {scope : Stack String} {t : Term} :
    (t.named scope).isSome ↔ ∀ i, t.HasFree i → (nameIn? scope i).isSome := by
  induction t generalizing scope with
  | var i s => simp [named, HasFree]
  | lam x τ t s ih =>
      -- A fresh name hides no name that leads out of the abstraction.
      have hx := freshName_not_mem scope.entries x
      simp only [named, HasFree, Option.isSome_map, ih]
      constructor
      · intro h i hi
        rw [← nameIn?_push_succ hx]
        exact h (i + 1) hi
      · intro h i hi
        cases i with
        | zero => simp [nameIn?_push_zero]
        | succ i =>
            rw [nameIn?_push_succ hx]
            exact h i hi
  | app t u s iht ihu =>
      have happ : ((app t u s).named scope).isSome ↔
          (t.named scope).isSome ∧ (u.named scope).isSome := by
        simp only [named]
        cases t.named scope <;> cases u.named scope <;> simp
      rw [happ, iht, ihu]
      constructor
      · rintro ⟨ht, hu⟩ i (hi | hi)
        · exact ht i hi
        · exact hu i hi
      · intro h
        exact ⟨fun i hi => h i (.inl hi), fun i hi => h i (.inr hi)⟩

/-- A term is printed by choosing names. -/
theorem write_of_named {scope : Stack String} {t : Term} {e : Expr} (h : t.named scope = some e)
    (pos : Position) : t.write scope pos = e.toText pos := by
  induction t generalizing scope e pos with
  | var i s =>
      obtain ⟨x, hx, rfl⟩ := Option.map_eq_some_iff.mp h
      simp [write, hx, Expr.toText]
  | lam x τ t s ih =>
      obtain ⟨e, he, rfl⟩ := Option.map_eq_some_iff.mp h
      simp only [write, Expr.toText, ih he]
  | app t u s iht ihu =>
      obtain ⟨e, he, h⟩ := Option.bind_eq_some_iff.mp h
      obtain ⟨f, hf, rfl⟩ := Option.map_eq_some_iff.mp h
      simp only [write, Expr.toText, iht he, ihu hf]

/-- Resolution undoes the choice of names. -/
theorem resolveIn_of_named {scope : Stack String} {t : Term} {e : Expr}
    (h : t.named scope = some e) : e.resolveIn scope = .ok (t.refresh scope) := by
  induction t generalizing scope e with
  | var i s =>
      obtain ⟨x, hx, rfl⟩ := Option.map_eq_some_iff.mp h
      simp only [Expr.resolveIn, nameIn?_eq_some_iff.mp hx, refresh]
  | lam x τ t s ih =>
      obtain ⟨e, he, rfl⟩ := Option.map_eq_some_iff.mp h
      exact bind_pure_eq_ok_iff.mpr ⟨_, ih he, rfl⟩
  | app t u s iht ihu =>
      obtain ⟨e, he, h⟩ := Option.bind_eq_some_iff.mp h
      obtain ⟨f, hf, rfl⟩ := Option.map_eq_some_iff.mp h
      exact bind_bind_pure_eq_ok_iff.mpr ⟨_, _, iht he, ihu hf, rfl⟩

/-- The names that are chosen are names of the scope and of the binders, with primes. -/
theorem isName_of_named {scope : Stack String} {t : Term} {e : Expr} (h : t.named scope = some e)
    (hscope : ∀ x ∈ scope.entries, IsName x) (ht : ∀ x ∈ t.binders, IsName x) :
    ∀ x ∈ e.names, IsName x := by
  induction t generalizing scope e with
  | var i s =>
      obtain ⟨x, hx, rfl⟩ := Option.map_eq_some_iff.mp h
      intro y hy
      obtain rfl := List.mem_singleton.mp hy
      exact hscope y (mem_entries_of_nameIn? hx)
  | lam x τ t s ih =>
      obtain ⟨e, he, rfl⟩ := Option.map_eq_some_iff.mp h
      have hx : IsName (freshName scope.entries x) :=
        (ht x List.mem_cons_self).freshName scope.entries
      have hpush := List.forall_mem_cons.mpr ⟨hx, hscope⟩
      have hbody := ih he hpush fun y hy => ht y (List.mem_cons_of_mem x hy)
      exact List.forall_mem_cons.mpr ⟨hx, hbody⟩
  | app t u s iht ihu =>
      obtain ⟨e, he, h⟩ := Option.bind_eq_some_iff.mp h
      obtain ⟨f, hf, rfl⟩ := Option.map_eq_some_iff.mp h
      have he' := iht he hscope fun y hy => ht y (List.mem_append_left _ hy)
      have hf' := ihu hf hscope fun y hy => ht y (List.mem_append_right _ hy)
      exact List.forall_mem_append.mpr ⟨he', hf'⟩

/-! ## The term with the names it is printed with -/

/-- No binder has a name that is in scope where the binder stands. -/
def BindersFresh (scope : Stack String) : Term → Prop
  | var .. => True
  | lam x _ t _ => x ∉ scope.entries ∧ t.BindersFresh (scope.push x)
  | app t u _ => t.BindersFresh scope ∧ u.BindersFresh scope

theorem refresh_of_bindersFresh {scope : Stack String} {t : Term} (h : t.BindersFresh scope) :
    t.refresh scope = t := by
  induction t generalizing scope with
  | var i s => rfl
  | lam x τ t s ih => simp only [refresh, freshName_of_not_mem h.1, ih h.2]
  | app t u s iht ihu => simp only [refresh, iht h.1, ihu h.2]

theorem write_refresh (t : Term) (scope : Stack String) (pos : Position) :
    (t.refresh scope).write scope pos = t.write scope pos := by
  induction t generalizing scope pos with
  | var i s => rfl
  | lam x τ t s ih => simp only [refresh, write, freshName_freshName, ih]
  | app t u s iht ihu => simp only [refresh, write, iht, ihu]

end Term

/-! ## Spans are neither written nor resolved -/

@[simp] theorem Term.write_eraseSpans (t : Term) (scope : Stack String) (pos : Position) :
    t.eraseSpans.write scope pos = t.write scope pos := by
  induction t generalizing scope pos with
  | var i s => rfl
  | lam x τ t s ih => simp only [eraseSpans, write, Ty.toText_eraseSpans, ih]
  | app t u s iht ihu => simp only [eraseSpans, write, iht, ihu]

def UnboundName.eraseSpan (e : UnboundName) : UnboundName := ⟨e.name, .nowhere⟩

/-- Resolution goes along with forgetting spans, whether it succeeds or fails. -/
theorem Expr.resolveIn_eraseSpans (e : Expr) (scope : Stack String) :
    e.eraseSpans.resolveIn scope =
      ((e.resolveIn scope).mapError UnboundName.eraseSpan).map Term.eraseSpans := by
  induction e generalizing scope with
  | var x s =>
      rw [eraseSpans, resolveIn, resolveIn]
      cases scope.findIdx? (· == x) <;> rfl
  | lam x τ e s ih =>
      rw [eraseSpans, resolveIn, resolveIn, ih]
      exact map_mapError_bind_of_forall fun _ => rfl
  | app e f s ihe ihf =>
      rw [eraseSpans, resolveIn, resolveIn, ihe, ihf]
      apply map_mapError_bind_of_forall
      intro t
      exact map_mapError_bind_of_forall fun _ => rfl

/-- Expressions that differ in their spans only are resolved alike. -/
theorem Expr.resolveIn_of_eraseSpans_eq {e f : Expr} {scope : Stack String} {t : Term}
    (h : f.eraseSpans = e.eraseSpans) (ht : e.resolveIn scope = .ok t) :
    ∃ u, f.resolveIn scope = .ok u ∧ u.eraseSpans = t.eraseSpans := by
  have hf := f.resolveIn_eraseSpans scope
  rw [h, e.resolveIn_eraseSpans, ht] at hf
  obtain ⟨u, hu, heq⟩ := map_eq_ok_iff.mp hf.symm
  exact ⟨u, mapError_eq_ok_iff.mp hu, heq⟩

/-! ## What resolution gives -/

/-- Resolution finds variables by names that lead back to them. -/
theorem Expr.nameIn?_of_resolveIn {e : Expr} {scope : Stack String} {t : Term}
    (h : e.resolveIn scope = .ok t) {i : Nat} (hi : t.HasFree i) :
    (Term.nameIn? scope i).isSome := by
  induction e generalizing scope t i with
  | var x s =>
      simp only [resolveIn] at h
      split at h
      · next j hj =>
          cases h
          cases hi
          rw [Term.nameIn?_eq_some_iff.mpr hj]
          rfl
      · cases h
  | lam x τ e s ih =>
      obtain ⟨t, ht, rfl⟩ := bind_pure_eq_ok_iff.mp h
      obtain ⟨y, hy⟩ := Option.isSome_iff_exists.mp (ih ht hi)
      rw [Term.nameIn?_of_push hy]
      rfl
  | app e f s ihe ihf =>
      obtain ⟨t, u, ht, hu, rfl⟩ := bind_bind_pure_eq_ok_iff.mp h
      rcases hi with hi | hi
      · exact ihe ht hi
      · exact ihf hu hi

theorem Expr.binders_subset_of_resolveIn {e : Expr} {scope : Stack String} {t : Term}
    (h : e.resolveIn scope = .ok t) : t.binders ⊆ e.names := by
  induction e generalizing scope t with
  | var x s =>
      simp only [resolveIn] at h
      split at h
      · cases h
        exact List.nil_subset _
      · cases h
  | lam x τ e s ih =>
      obtain ⟨t, ht, rfl⟩ := bind_pure_eq_ok_iff.mp h
      exact List.cons_subset_cons x (ih ht)
  | app e f s ihe ihf =>
      obtain ⟨t, u, ht, hu, rfl⟩ := bind_bind_pure_eq_ok_iff.mp h
      intro x hx
      rcases List.mem_append.mp hx with hx | hx
      · exact List.mem_append_left _ (ihe ht hx)
      · exact List.mem_append_right _ (ihf hu hx)

/-! ## The mark of a variable that has no name -/

theorem Term.hash_mem_write {scope : Stack String} {t : Term} (h : t.named scope = none)
    (pos : Position) : '#' ∈ (t.write scope pos).toList := by
  induction t generalizing scope pos with
  | var i s =>
      rw [named, Option.map_eq_none_iff] at h
      simp [write, h]
  | lam x τ t s ih =>
      have ht := ih (Option.map_eq_none_iff.mp h) .top
      simp only [write]
      split <;> simp [ht]
  | app t u s iht ihu =>
      have happ : '#' ∈ (t.write scope .head).toList ∨ '#' ∈ (u.write scope .argument).toList := by
        cases ht : t.named scope with
        | none => exact .inl (iht ht .head)
        | some e =>
            rw [named, ht, Option.bind_some, Option.map_eq_none_iff] at h
            exact .inr (ihu h .argument)
      simp only [write]
      split <;> simpa using happ

theorem IsName.slash_not_mem {x : String} (h : IsName x) : '/' ∉ x.toList := by
  intro hmem
  have hrest := h.isNameRest _ hmem
  revert hrest
  decide

theorem Ty.slash_not_mem_toText (τ : Ty) : '/' ∉ τ.toText.toList := by
  induction τ with
  | bool s => simp [toText]
  | arrow a b s iha ihb =>
      simp only [toText]
      split <;> simp [iha, ihb]

/-- Nothing that is written begins a comment. -/
theorem Term.slash_not_mem_write {scope : Stack String} {t : Term} (pos : Position)
    (hscope : ∀ x ∈ scope.entries, IsName x) (ht : ∀ x ∈ t.binders, IsName x) :
    '/' ∉ (t.write scope pos).toList := by
  induction t generalizing scope pos with
  | var i s =>
      rw [write]
      cases hx : nameIn? scope i with
      | some x => exact (hscope x (mem_entries_of_nameIn? hx)).slash_not_mem
      | none =>
          intro hmem
          have hdigit : '/' ∈ Nat.toDigits 10 i := by simpa using hmem
          have := Nat.isDigit_of_mem_toDigits (by decide) (by decide) hdigit
          revert this
          decide
  | lam x τ t s ih =>
      have hx : IsName (freshName scope.entries x) :=
        (ht x List.mem_cons_self).freshName scope.entries
      have hpush : ∀ y ∈ (scope.push (freshName scope.entries x)).entries, IsName y :=
        List.forall_mem_cons.mpr ⟨hx, hscope⟩
      have hbody := ih .top hpush fun y hy => ht y (List.mem_cons_of_mem x hy)
      have hname := hx.slash_not_mem
      have htype := τ.slash_not_mem_toText
      simp only [write]
      split <;> simp [hname, htype, hbody]
  | app t u s iht ihu =>
      have ht' := iht .head hscope fun y hy => ht y (List.mem_append_left _ hy)
      have hu' := ihu .argument hscope fun y hy => ht y (List.mem_append_right _ hy)
      simp only [write]
      split <;> simp [ht', hu']

/-- A text with the mark, and no comment to hide it, is refused. -/
theorem Reader.parse_error_of_hash {σ α : Type} (R : Reader σ α) {source : String}
    (hhash : '#' ∈ source.toList) (hslash : '/' ∉ source.toList) :
    ∃ e, R.parse source = .error e := by
  cases h : R.parse source with
  | error e => exact ⟨e, rfl⟩
  | ok a =>
      obtain ⟨ls, hscan, _⟩ := R.parse_eq_ok_iff.mp h
      exact absurd hhash ((Scan.reads_of_scanFrom hscan).hash_not_mem hslash)

theorem Term.parse_write_of_not_named {scope : Stack String} {t : Term} (h : t.named scope = none)
    (pos : Position) (hscope : ∀ x ∈ scope.entries, IsName x) (ht : ∀ x ∈ t.binders, IsName x) :
    ∃ e, Expr.parse (t.write scope pos) = .error e :=
  Expr.reader.parse_error_of_hash (hash_mem_write h pos) (slash_not_mem_write pos hscope ht)

end Stlc
