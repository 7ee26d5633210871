import Mathlib
import Stlc.Source.Token

/-!
# Balanced parentheses

An atom is a single token, or parentheses around tokens among which they are balanced. Where an atom
stands next to something else, the tokens alone say where it ends and where it begins: no atom
begins or ends another one (`Atomic.append_inj_left`, `Atomic.append_inj_right`).
-/

namespace Stlc

/-! ## Counting parentheses -/

def opens (ls : List Lexeme) : Nat := ls.countP (·.token == .lparen)

def closes (ls : List Lexeme) : Nat := ls.countP (·.token == .rparen)

@[simp] theorem opens_nil : opens [] = 0 := rfl

@[simp] theorem closes_nil : closes [] = 0 := rfl

@[simp] theorem opens_append (ls ms : List Lexeme) : opens (ls ++ ms) = opens ls + opens ms :=
  List.countP_append

@[simp] theorem closes_append (ls ms : List Lexeme) : closes (ls ++ ms) = closes ls + closes ms :=
  List.countP_append

@[simp] theorem opens_lparen (s : Span) (ls : List Lexeme) :
    opens (⟨.lparen, s⟩ :: ls) = opens ls + 1 := List.countP_cons_of_pos rfl

@[simp] theorem closes_lparen (s : Span) (ls : List Lexeme) :
    closes (⟨.lparen, s⟩ :: ls) = closes ls := List.countP_cons_of_neg nofun

@[simp] theorem opens_rparen (s : Span) (ls : List Lexeme) :
    opens (⟨.rparen, s⟩ :: ls) = opens ls := List.countP_cons_of_neg nofun

@[simp] theorem closes_rparen (s : Span) (ls : List Lexeme) :
    closes (⟨.rparen, s⟩ :: ls) = closes ls + 1 := List.countP_cons_of_pos rfl

/-- Every parenthesis is closed, and none before it is opened. -/
structure Balanced (ls : List Lexeme) : Prop where
  closes_eq : closes ls = opens ls
  closes_le : ∀ ks rs, ks ++ rs = ls → closes ks ≤ opens ks

theorem Balanced.append {ls ms : List Lexeme} (hls : Balanced ls) (hms : Balanced ms) :
    Balanced (ls ++ ms) where
  closes_eq := by
    rw [closes_append, opens_append, hls.closes_eq, hms.closes_eq]
  closes_le := by
    intro ks rs h
    rcases List.append_eq_append_iff.mp h with ⟨as, rfl, _⟩ | ⟨as, rfl, hrs⟩
    · exact hls.closes_le ks as rfl
    · have := hms.closes_le as rs hrs.symm
      have := hls.closes_eq
      simp only [closes_append, opens_append]
      omega

theorem balanced_singleton {l : Lexeme} (hl : l.token ≠ .lparen) (hr : l.token ≠ .rparen) :
    Balanced [l] := by
  have hopens : opens [l] = 0 := List.countP_eq_zero.mpr (by simpa using hl)
  have hcloses : closes [l] = 0 := List.countP_eq_zero.mpr (by simpa using hr)
  refine ⟨by rw [hopens, hcloses], ?_⟩
  intro ks rs h
  have hle : closes ks ≤ closes [l] := by
    rw [← h, closes_append]
    exact Nat.le_add_right _ _
  omega

theorem Balanced.enclose {ls : List Lexeme} (h : Balanced ls) (s s' : Span) :
    Balanced (⟨.lparen, s⟩ :: (ls ++ [⟨.rparen, s'⟩])) where
  closes_eq := by
    simp [h.closes_eq]
  closes_le := by
    intro ks rs hks
    cases ks with
    | nil => exact Nat.le_refl 0
    | cons k ks =>
        obtain ⟨rfl, hinner⟩ := List.cons.inj hks
        rw [opens_lparen, closes_lparen]
        rcases List.append_eq_append_iff.mp hinner with ⟨as, hls, _⟩ | ⟨as, rfl, has⟩
        · exact Nat.le_succ_of_le (h.closes_le ks as hls.symm)
        · -- Only the parenthesis at the end can be in what goes past the inside.
          have hone : closes as ≤ 1 := by
            have hcloses := congrArg closes has
            simp only [closes_append, closes_rparen, closes_nil] at hcloses
            omega
          have := h.closes_eq
          simp only [closes_append, opens_append]
          omega

/-- A single token, or parentheses around tokens in which they are balanced. -/
inductive Atomic : List Lexeme → Prop where
  | single {l : Lexeme} : l.token ≠ .lparen → l.token ≠ .rparen → Atomic [l]
  | paren {s s' ls} : Balanced ls → Atomic (⟨.lparen, s⟩ :: (ls ++ [⟨.rparen, s'⟩]))

namespace Atomic

theorem balanced {ls : List Lexeme} (h : Atomic ls) : Balanced ls := by
  cases h with
  | single hl hr => exact balanced_singleton hl hr
  | paren hls => exact hls.enclose _ _

theorem ne_nil {ls : List Lexeme} (h : Atomic ls) : ls ≠ [] := by
  cases h <;> simp

/-- What begins with an atom and is one is no more than that: short of the last parenthesis, one
more is open than is closed. -/
theorem eq_nil_of_append_left {ls rs : List Lexeme} (hls : Atomic ls) (h : Atomic (ls ++ rs)) :
    rs = [] := by
  generalize happ : ls ++ rs = ms at h
  cases h with
  | single =>
      obtain ⟨l, ls, rfl⟩ := List.exists_cons_of_ne_nil hls.ne_nil
      exact (List.append_eq_nil_iff.mp (List.cons.inj happ).2).2
  | @paren s s' ms hms =>
      rcases List.eq_nil_or_concat' rs with rfl | ⟨rs, r, rfl⟩
      · rfl
      · exfalso
        obtain ⟨l, ls, rfl⟩ := List.exists_cons_of_ne_nil hls.ne_nil
        obtain ⟨rfl, hinner⟩ := List.cons.inj happ
        have hsplit : ls ++ rs ++ [r] = ms ++ [⟨.rparen, s'⟩] := by
          rw [List.append_assoc]
          exact hinner
        have hle := hms.closes_le ls rs (List.append_inj_left' hsplit rfl)
        have heq := hls.balanced.closes_eq
        rw [opens_lparen, closes_lparen] at heq
        omega

/-- What ends with an atom and is one is no more than that: behind the first parenthesis, one more
is closed than is opened. -/
theorem eq_nil_of_append_right {ks ls : List Lexeme} (hls : Atomic ls) (h : Atomic (ks ++ ls)) :
    ks = [] := by
  generalize happ : ks ++ ls = ms at h
  cases h with
  | single =>
      cases ks with
      | nil => rfl
      | cons k ks => exact absurd (List.append_eq_nil_iff.mp (List.cons.inj happ).2).2 hls.ne_nil
  | @paren s s' ms hms =>
      cases ks with
      | nil => rfl
      | cons k ks =>
          exfalso
          obtain ⟨rfl, hinner⟩ := List.cons.inj happ
          rcases List.eq_nil_or_concat' ls with rfl | ⟨ls, l, rfl⟩
          · exact hls.ne_nil rfl
          · have hsplit : ks ++ ls ++ [l] = ms ++ [⟨.rparen, s'⟩] := by
              rw [List.append_assoc]
              exact hinner
            obtain ⟨rfl, hlast⟩ := List.append_inj' hsplit rfl
            cases hlast
            have hle := hms.closes_le ks ls rfl
            have hinside := hms.closes_eq
            have heq := hls.balanced.closes_eq
            simp only [closes_append, opens_append, closes_rparen, opens_rparen, closes_nil,
              opens_nil] at hinside heq
            omega

theorem append_inj_left {ls ls' rs rs' : List Lexeme} (h : Atomic ls) (h' : Atomic ls')
    (heq : ls ++ rs = ls' ++ rs') : ls = ls' ∧ rs = rs' := by
  rcases List.append_eq_append_iff.mp heq with ⟨as, rfl, rfl⟩ | ⟨as, rfl, rfl⟩
  · simp [h.eq_nil_of_append_left h']
  · simp [h'.eq_nil_of_append_left h]

theorem append_inj_right {ks ks' ls ls' : List Lexeme} (h : Atomic ls) (h' : Atomic ls')
    (heq : ks ++ ls = ks' ++ ls') : ks = ks' ∧ ls = ls' := by
  rcases List.append_eq_append_iff.mp heq with ⟨as, rfl, rfl⟩ | ⟨as, rfl, rfl⟩
  · simp [h'.eq_nil_of_append_right h]
  · simp [h.eq_nil_of_append_right h']

end Atomic

end Stlc
