import Stlc.Proofs.BindingGrammar
import Stlc.Proofs.LongestMatch
import Stlc.Proofs.Parentheses
import Stlc.Proofs.TermGrammar

/-!
# Derivations

A derivation has one node for each production that is used, those for parentheses and for a change
of the nonterminal alone included. `flatten` lists the tokens that it derives, and `type`, `expr`
and `binding` build what the productions say.

The grammar is unambiguous: `flatten` is injective. Where a phrase is put together of two, the
tokens say how it is divided, because one of the two is an atom, or else because the first of them
has no dot in it and a dot follows.

`parse_iff_derivation` puts this together with the readers and the division of a source into tokens.
-/

namespace Stlc

/-- Two sequences are divided alike at the first token of a kind. -/
theorem append_cons_inj_of_token {t : Token} {ls ls' ms ms' : List Lexeme} {s s' : Span}
    (h : ∀ l ∈ ls, l.token ≠ t) (h' : ∀ l ∈ ls', l.token ≠ t)
    (heq : ls ++ ⟨t, s⟩ :: ms = ls' ++ ⟨t, s'⟩ :: ms') : ls = ls' ∧ s = s' ∧ ms = ms' := by
  induction ls generalizing ls' with
  | nil =>
      cases ls' with
      | nil =>
          cases heq
          exact ⟨rfl, rfl, rfl⟩
      | cons l ls' =>
          obtain ⟨rfl, _⟩ := List.cons.inj heq
          exact absurd rfl (h' _ List.mem_cons_self)
  | cons l ls ih =>
      cases ls' with
      | nil =>
          obtain ⟨rfl, _⟩ := List.cons.inj heq
          exact absurd rfl (h _ List.mem_cons_self)
      | cons l' ls' =>
          obtain ⟨rfl, htail⟩ := List.cons.inj heq
          obtain ⟨rfl, hs, hms⟩ := ih (fun k hk => h k (List.mem_cons_of_mem l hk))
            (fun k hk => h' k (List.mem_cons_of_mem l hk)) htail
          exact ⟨rfl, hs, hms⟩

/-! ## Types -/

namespace Ty

inductive Derivation : Phrase → Type where
  | bool (s : Span) : Derivation .atom
  | paren (s : Span) (d : Derivation .type) (s' : Span) : Derivation .atom
  | atom (d : Derivation .atom) : Derivation .type
  | arrow (d : Derivation .atom) (s : Span) (d' : Derivation .type) : Derivation .type

namespace Derivation

def flatten {n : Phrase} : Derivation n → List Lexeme
  | bool s => [⟨.bool, s⟩]
  | paren s d s' => ⟨.lparen, s⟩ :: (d.flatten ++ [⟨.rparen, s'⟩])
  | atom d => d.flatten
  | arrow d s d' => d.flatten ++ ⟨.arrow, s⟩ :: d'.flatten

def type {n : Phrase} : Derivation n → Ty
  | bool s => .bool s
  | paren _ d _ => d.type
  | atom d => d.type
  | arrow d s d' => .arrow d.type d'.type (spanOf (arrow d s d').flatten)

theorem derives {n : Phrase} (d : Derivation n) : Derives n d.flatten d.type := by
  induction d with
  | bool s => exact .bool
  | paren s d s' ih => exact .paren ih
  | atom d ih => exact .atom ih
  | arrow d s d' ih ih' => exact .arrow ih ih'

theorem balanced {n : Phrase} (d : Derivation n) : Balanced d.flatten := by
  induction d with
  | bool s => exact balanced_singleton nofun nofun
  | paren s d s' ih => exact ih.enclose s s'
  | atom d ih => exact ih
  | arrow d s d' ih ih' =>
      have harrow : Balanced [⟨.arrow, s⟩] := balanced_singleton nofun nofun
      exact ih.append (harrow.append ih')

theorem atomic (d : Derivation .atom) : Atomic d.flatten := by
  cases d with
  | bool s => exact .single nofun nofun
  | paren s d s' => exact .paren d.balanced

/-- A type has no dot in it. -/
theorem token_ne_dot {n : Phrase} (d : Derivation n) : ∀ l ∈ d.flatten, l.token ≠ .dot := by
  induction d with
  | bool s => simp [flatten]
  | paren s d s' ih =>
      simp only [flatten, List.mem_cons, List.mem_append, List.not_mem_nil, or_false]
      rintro l (rfl | hl | rfl)
      · exact nofun
      · exact ih l hl
      · exact nofun
  | atom d ih => exact ih
  | arrow d s d' ih ih' =>
      simp only [flatten, List.mem_append, List.mem_cons]
      rintro l (hl | rfl | hl)
      · exact ih l hl
      · exact nofun
      · exact ih' l hl

theorem flatten_injective {n : Phrase} : Function.Injective (@flatten n) := by
  intro d d' h
  induction d with
  | bool s =>
      cases d' with
      | bool s' =>
          cases h
          rfl
      | paren => cases h
  | paren s d₁ s₁ ih =>
      cases d' with
      | bool => cases h
      | paren s' d' s₁' =>
          obtain ⟨hs, htail⟩ := List.cons.inj h
          obtain ⟨hd, hs₁⟩ := List.append_inj' htail rfl
          cases hs
          cases hs₁
          rw [ih hd]
  | atom d ih =>
      cases d' with
      | atom d' => rw [ih h]
      | arrow a s b =>
          -- What begins with the atom `a` goes on behind it, so it is no atom.
          rw [flatten, flatten, ← List.append_nil d.flatten] at h
          exact absurd (d.atomic.append_inj_left a.atomic h).2 nofun
  | arrow a s b iha ihb =>
      cases d' with
      | atom d' =>
          rw [flatten, flatten, ← List.append_nil d'.flatten] at h
          exact absurd (a.atomic.append_inj_left d'.atomic h).2 nofun
      | arrow a' s' b' =>
          obtain ⟨ha, htail⟩ := a.atomic.append_inj_left a'.atomic h
          obtain ⟨hs, hb⟩ := List.cons.inj htail
          cases hs
          rw [iha ha, ihb hb]

end Derivation

/-- The grammar gives a tree to a sequence of tokens if a derivation of the sequence builds it. -/
theorem derives_iff_exists_derivation {n : Phrase} {ls : List Lexeme} {τ : Ty} :
    Derives n ls τ ↔ ∃ d : Derivation n, d.flatten = ls ∧ d.type = τ := by
  constructor
  · intro h
    induction h with
    | @bool s => exact ⟨.bool s, rfl, rfl⟩
    | @paren s s' ls τ _ ih =>
        obtain ⟨d, rfl, rfl⟩ := ih
        exact ⟨.paren s d s', rfl, rfl⟩
    | atom _ ih =>
        obtain ⟨d, rfl, rfl⟩ := ih
        exact ⟨.atom d, rfl, rfl⟩
    | @arrow s ls ms σ τ _ _ ih ih' =>
        obtain ⟨d, rfl, rfl⟩ := ih
        obtain ⟨d', rfl, rfl⟩ := ih'
        exact ⟨.arrow d s d', rfl, rfl⟩
  · rintro ⟨d, rfl, rfl⟩
    exact d.derives

end Ty

/-! ## Terms -/

namespace Expr

inductive Derivation : Phrase → Type where
  | var (x : String) (s : Span) : Derivation .atom
  | paren (s : Span) (d : Derivation .term) (s' : Span) : Derivation .atom
  | atom (d : Derivation .atom) : Derivation .app
  | app (d : Derivation .app) (d' : Derivation .atom) : Derivation .app
  | spine (d : Derivation .app) : Derivation .term
  | lam (s₁ : Span) (x : String) (s₂ s₃ : Span) (τ : Ty.Derivation .type) (s₄ : Span)
      (d : Derivation .term) : Derivation .term

namespace Derivation

def flatten {n : Phrase} : Derivation n → List Lexeme
  | var x s => [⟨.ident x, s⟩]
  | paren s d s' => ⟨.lparen, s⟩ :: (d.flatten ++ [⟨.rparen, s'⟩])
  | atom d => d.flatten
  | app d d' => d.flatten ++ d'.flatten
  | spine d => d.flatten
  | lam s₁ x s₂ s₃ τ s₄ d =>
    ⟨.lambda, s₁⟩ :: ⟨.ident x, s₂⟩ :: ⟨.colon, s₃⟩ :: (τ.flatten ++ ⟨.dot, s₄⟩ :: d.flatten)

def expr {n : Phrase} : Derivation n → Expr
  | var x s => .var x s
  | paren _ d _ => d.expr
  | atom d => d.expr
  | app d d' => .app d.expr d'.expr (spanOf (app d d').flatten)
  | spine d => d.expr
  | lam s₁ x s₂ s₃ τ s₄ d => .lam x τ.type d.expr (spanOf (lam s₁ x s₂ s₃ τ s₄ d).flatten)

theorem derives {n : Phrase} (d : Derivation n) : Derives n d.flatten d.expr := by
  induction d with
  | var x s => exact .var
  | paren s d s' ih => exact .paren ih
  | atom d ih => exact .atom ih
  | app d d' ih ih' => exact .app ih ih'
  | spine d ih => exact .spine ih
  | lam s₁ x s₂ s₃ τ s₄ d ih => exact .lam τ.derives ih

theorem balanced {n : Phrase} (d : Derivation n) : Balanced d.flatten := by
  induction d with
  | var x s => exact balanced_singleton nofun nofun
  | paren s d s' ih => exact ih.enclose s s'
  | atom d ih => exact ih
  | app d d' ih ih' => exact ih.append ih'
  | spine d ih => exact ih
  | lam s₁ x s₂ s₃ τ s₄ d ih =>
      have hlambda : Balanced [⟨.lambda, s₁⟩] := balanced_singleton nofun nofun
      have hident : Balanced [⟨.ident x, s₂⟩] := balanced_singleton nofun nofun
      have hcolon : Balanced [⟨.colon, s₃⟩] := balanced_singleton nofun nofun
      have hdot : Balanced [⟨.dot, s₄⟩] := balanced_singleton nofun nofun
      exact hlambda.append (hident.append (hcolon.append (τ.balanced.append (hdot.append ih))))

theorem atomic (d : Derivation .atom) : Atomic d.flatten := by
  cases d with
  | var x s => exact .single nofun nofun
  | paren s d s' => exact .paren d.balanced

theorem flatten_ne_nil {n : Phrase} (d : Derivation n) : d.flatten ≠ [] := d.derives.ne_nil

/-- Only an abstraction begins with a lambda. -/
theorem flatten_app_ne_lambda (d : Derivation .app) (s : Span) (ls : List Lexeme) :
    d.flatten ≠ ⟨.lambda, s⟩ :: ls := by
  generalize hn : Phrase.app = n at d
  induction d generalizing ls with
  | atom d ih =>
      cases d with
      | var => exact nofun
      | paren => exact nofun
  | app d d' ih _ =>
      intro h
      obtain ⟨l, ms, hms⟩ := List.exists_cons_of_ne_nil d.flatten_ne_nil
      rw [flatten, hms, List.cons_append] at h
      obtain ⟨rfl, _⟩ := List.cons.inj h
      exact ih ms rfl hms
  | _ => cases hn

theorem flatten_injective {n : Phrase} : Function.Injective (@flatten n) := by
  intro d d' h
  induction d with
  | var x s =>
      cases d' with
      | var x' s' =>
          cases h
          rfl
      | paren => cases h
  | paren s d₁ s₁ ih =>
      cases d' with
      | var => cases h
      | paren s' d' s₁' =>
          obtain ⟨hs, htail⟩ := List.cons.inj h
          obtain ⟨hd, hs₁⟩ := List.append_inj' htail rfl
          cases hs
          cases hs₁
          rw [ih hd]
  | atom d ih =>
      cases d' with
      | atom d' => rw [ih h]
      | app a b =>
          -- What ends with the atom `b` has something in front of it, so it is no atom.
          rw [flatten, flatten, ← List.nil_append d.flatten] at h
          exact absurd (d.atomic.append_inj_right b.atomic h).1.symm a.flatten_ne_nil
  | app a b iha ihb =>
      cases d' with
      | atom d' =>
          rw [flatten, flatten, ← List.nil_append d'.flatten] at h
          exact absurd (b.atomic.append_inj_right d'.atomic h).1 a.flatten_ne_nil
      | app a' b' =>
          obtain ⟨ha, hb⟩ := b.atomic.append_inj_right b'.atomic h
          rw [iha ha, ihb hb]
  | spine d ih =>
      cases d' with
      | spine d' => rw [ih h]
      | lam => exact absurd h (d.flatten_app_ne_lambda _ _)
  | lam s₁ x s₂ s₃ τ s₄ d ih =>
      cases d' with
      | spine d' => exact absurd h.symm (d'.flatten_app_ne_lambda _ _)
      | lam s₁' x' s₂' s₃' τ' s₄' d' =>
          simp only [flatten, List.cons.injEq] at h
          obtain ⟨h₁, h₂, h₃, htail⟩ := h
          -- The annotation ends at the first dot.
          obtain ⟨hτ, rfl, hd⟩ := append_cons_inj_of_token τ.token_ne_dot τ'.token_ne_dot htail
          cases h₁
          cases h₂
          cases h₃
          rw [Ty.Derivation.flatten_injective hτ, ih hd]

end Derivation

/-- The grammar gives a tree to a sequence of tokens if a derivation of the sequence builds it. -/
theorem derives_iff_exists_derivation {n : Phrase} {ls : List Lexeme} {e : Expr} :
    Derives n ls e ↔ ∃ d : Derivation n, d.flatten = ls ∧ d.expr = e := by
  constructor
  · intro h
    induction h with
    | @var x s => exact ⟨.var x s, rfl, rfl⟩
    | @paren s s' ls e _ ih =>
        obtain ⟨d, rfl, rfl⟩ := ih
        exact ⟨.paren s d s', rfl, rfl⟩
    | atom _ ih =>
        obtain ⟨d, rfl, rfl⟩ := ih
        exact ⟨.atom d, rfl, rfl⟩
    | app _ _ ih ih' =>
        obtain ⟨d, rfl, rfl⟩ := ih
        obtain ⟨d', rfl, rfl⟩ := ih'
        exact ⟨.app d d', rfl, rfl⟩
    | spine _ ih =>
        obtain ⟨d, rfl, rfl⟩ := ih
        exact ⟨.spine d, rfl, rfl⟩
    | @lam s₁ s₂ s₃ s₄ x ls ms τ e hτ _ ih =>
        obtain ⟨d, rfl, rfl⟩ := ih
        obtain ⟨dτ, rfl, rfl⟩ := Ty.derives_iff_exists_derivation.mp hτ
        exact ⟨.lam s₁ x s₂ s₃ dτ s₄ d, rfl, rfl⟩
  · rintro ⟨d, rfl, rfl⟩
    exact d.derives

end Expr

/-! ## Bindings -/

namespace Binding

inductive Derivation where
  | untyped (x : String) (s : Span)
  | typed (x : String) (s s' : Span) (d : Ty.Derivation .type)

namespace Derivation

def flatten : Derivation → List Lexeme
  | untyped x s => [⟨.ident x, s⟩]
  | typed x s s' d => ⟨.ident x, s⟩ :: ⟨.colon, s'⟩ :: d.flatten

def binding : Derivation → Binding
  | untyped x _ => .untyped x
  | typed x _ _ d => .typed x d.type

theorem flatten_injective : Function.Injective flatten := by
  intro d d' h
  cases d with
  | untyped x s =>
      cases d' with
      | untyped =>
          cases h
          rfl
      | typed => cases h
  | typed x s s' d =>
      cases d' with
      | untyped => cases h
      | typed =>
          simp only [flatten, List.cons.injEq] at h
          obtain ⟨h₁, h₂, h⟩ := h
          cases h₁
          cases h₂
          rw [Ty.Derivation.flatten_injective h]

end Derivation

theorem derives_iff_exists_derivation {ls : List Lexeme} {b : Binding} :
    Derives ls b ↔ ∃ d : Derivation, d.flatten = ls ∧ d.binding = b := by
  constructor
  · intro h
    cases h with
    | @untyped x s => exact ⟨.untyped x s, rfl, rfl⟩
    | @typed x s s' ls τ hτ =>
        obtain ⟨d, rfl, rfl⟩ := Ty.derives_iff_exists_derivation.mp hτ
        exact ⟨.typed x s s' d, rfl, rfl⟩
  · rintro ⟨d, rfl, rfl⟩
    cases d with
    | untyped x s => exact .untyped
    | typed x s s' d => exact .typed d.derives

end Binding

/-! ## Sources -/

/-- What is derived from the tokens that are scanned has a derivation of the tokens that the source
divides into. -/
theorem exists_scan_iff_exists_lexes {δ α : Type} {flatten : δ → List Lexeme} {tree : δ → α}
    {P : List Lexeme → α → Prop} (h : ∀ {ls a}, P ls a ↔ ∃ d, flatten d = ls ∧ tree d = a)
    (source : String) (a : α) :
    (∃ ls, Scan.ofString source = ⟨ls, none⟩ ∧ P ls a) ↔
      ∃ d, Lexes 0 source.toList (flatten d) ∧ tree d = a := by
  simp only [Scan.ofString_eq_iff, h]
  constructor
  · rintro ⟨_, hlexes, d, rfl, ha⟩
    exact ⟨d, hlexes, ha⟩
  · rintro ⟨d, hlexes, ha⟩
    exact ⟨_, hlexes, d, rfl, ha⟩

/-- **Soundness and completeness of the three parsers.** `Expr.parse`, `Ty.parse` and
`Binding.parse` give a tree iff it is the one of a derivation whose `flatten` is what the source
`Lexes` to. `flatten` is injective on each family, so the derivation is unique. Each part is
`exists_scan_iff_exists_lexes` at the grammar in question. -/
theorem parse_iff_derivation :
    (∀ source e, Expr.parse source = .ok e ↔
      ∃ d : Expr.Derivation .term, Lexes 0 source.toList d.flatten ∧ d.expr = e) ∧
    (∀ source τ, Ty.parse source = .ok τ ↔
      ∃ d : Ty.Derivation .type, Lexes 0 source.toList d.flatten ∧ d.type = τ) ∧
    (∀ source b, Binding.parse source = .ok b ↔
      ∃ d : Binding.Derivation, Lexes 0 source.toList d.flatten ∧ d.binding = b) ∧
    (∀ n, Function.Injective (@Expr.Derivation.flatten n)) ∧
    (∀ n, Function.Injective (@Ty.Derivation.flatten n)) ∧
    Function.Injective Binding.Derivation.flatten := by
  refine ⟨?_, ?_, ?_, @Expr.Derivation.flatten_injective, @Ty.Derivation.flatten_injective,
    Binding.Derivation.flatten_injective⟩
  · intro source e
    rw [Expr.parse_eq_ok_iff]
    exact exists_scan_iff_exists_lexes Expr.derives_iff_exists_derivation source e
  · intro source τ
    rw [Ty.parse_eq_ok_iff]
    exact exists_scan_iff_exists_lexes Ty.derives_iff_exists_derivation source τ
  · intro source b
    rw [Binding.parse_eq_ok_iff]
    exact exists_scan_iff_exists_lexes Binding.derives_iff_exists_derivation source b

end Stlc
