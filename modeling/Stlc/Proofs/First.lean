import Mathlib

/-!
# The first entry that fails

A pass that goes through its input from the left, and gives up as soon as it cannot go on, reports
the first place where that happens. `IsFirstWithout p xs a` says so of a list of places: `a` is the
first entry that lacks `p`.

A pass is described by such a list completely if all places have the property when it succeeds, and
if its error is about the first place that has not when it fails (`eq_error_iff_isFirstWithout`).
-/

namespace Stlc

variable {α β ε : Type}

/-- The first of the entries that lacks `p` is `a`. -/
def IsFirstWithout (p : α → Prop) (xs : List α) (a : α) : Prop :=
  ∃ before after, xs = before ++ a :: after ∧ (∀ b ∈ before, p b) ∧ ¬ p a

namespace IsFirstWithout

variable {p : α → Prop} {xs ys : List α} {a b : α}

theorem singleton (h : ¬ p a) : IsFirstWithout p [a] a := ⟨[], [], rfl, nofun, h⟩

theorem append_left (h : IsFirstWithout p xs a) (ys : List α) : IsFirstWithout p (xs ++ ys) a := by
  obtain ⟨before, after, rfl, hbefore, ha⟩ := h
  exact ⟨before, after ++ ys, by simp, hbefore, ha⟩

theorem append_right (hxs : ∀ x ∈ xs, p x) (h : IsFirstWithout p ys a) :
    IsFirstWithout p (xs ++ ys) a := by
  obtain ⟨before, after, rfl, hbefore, ha⟩ := h
  refine ⟨xs ++ before, after, by simp, ?_, ha⟩
  intro x hx
  rcases List.mem_append.mp hx with hx | hx
  · exact hxs x hx
  · exact hbefore x hx

theorem mem (h : IsFirstWithout p xs a) : a ∈ xs := by
  obtain ⟨before, after, rfl, _, _⟩ := h
  simp

theorem lacks (h : IsFirstWithout p xs a) : ¬ p a := by
  obtain ⟨_, _, _, _, ha⟩ := h
  exact ha

theorem not_forall (h : IsFirstWithout p xs a) : ¬ ∀ x ∈ xs, p x :=
  fun hall => h.lacks (hall a h.mem)

theorem unique (ha : IsFirstWithout p xs a) (hb : IsFirstWithout p xs b) : a = b := by
  obtain ⟨before, after, rfl, hbefore, ha⟩ := ha
  obtain ⟨before', after', heq, hbefore', hb⟩ := hb
  -- If one of the two came first, it would be among the entries before the other.
  rcases List.append_eq_append_iff.mp heq with ⟨zs, rfl, hzs⟩ | ⟨zs, rfl, hzs⟩
  · cases zs with
    | nil =>
        cases hzs
        rfl
    | cons z zs =>
        cases hzs
        exact absurd (hbefore' a (by simp)) ha
  · cases zs with
    | nil =>
        cases hzs
        rfl
    | cons z zs =>
        cases hzs
        exact absurd (hbefore b (by simp)) hb

end IsFirstWithout

/-- A computation that succeeds only if all entries have `p`, and otherwise fails for what there is
to report about the first that has not. -/
theorem eq_error_iff_isFirstWithout {x : Except ε β} {p : α → Prop} {xs : List α}
    {report : α → ε → Prop} (hok : ∀ b, x = .ok b → ∀ a ∈ xs, p a)
    (herror : ∀ e, x = .error e → ∃ a, IsFirstWithout p xs a ∧ report a e)
    (hreport : ∀ a e e', report a e → report a e' → e = e') {e : ε} :
    x = .error e ↔ ∃ a, IsFirstWithout p xs a ∧ report a e := by
  constructor
  · exact herror e
  · rintro ⟨a, ha, he⟩
    cases hx : x with
    | ok b => exact absurd (hok b hx) ha.not_forall
    | error e' =>
        obtain ⟨a', ha', he'⟩ := herror e' hx
        obtain rfl := ha.unique ha'
        rw [hreport a e e' he he']

end Stlc
