import Stlc.Proofs.Slices
import Stlc.Proofs.TermGrammar

/-!
# Parts of an expression

What an expression has for a part was read from tokens that follow one another
(`Expr.Derives.exists_builds_of_isPart`), without the parentheses around it (`Expr.Builds`). The
grammar does not say where a token is, so that the same tokens at other places are derived as the
same tree at other places (`Expr.Derives.mapSpans`). With what is known about slices of a source, a
part is what its slice is read as, alone (`Expr.readsAlone_of_isPart`).
-/

namespace Stlc

/-! ## Trees at other places -/

/-- The type at another place. -/
def Ty.mapSpans (g h : Nat → Nat) : Ty → Ty
  | bool s => bool (s.map g h)
  | arrow a b s => arrow (a.mapSpans g h) (b.mapSpans g h) (s.map g h)

def Expr.mapSpans (g h : Nat → Nat) : Expr → Expr
  | var x s => var x (s.map g h)
  | lam x τ e s => lam x (τ.mapSpans g h) (e.mapSpans g h) (s.map g h)
  | app e f s => app (e.mapSpans g h) (f.mapSpans g h) (s.map g h)

theorem Ty.Derives.mapSpans (g h : Nat → Nat) {n : Phrase} {ls : List Lexeme} {τ : Ty}
    (hτ : Derives n ls τ) : Derives n (ls.map (Lexeme.mapSpan g h)) (τ.mapSpans g h) := by
  induction hτ with
  | bool => exact .bool
  | paren _ ih =>
      rw [List.map_cons, List.map_append]
      exact .paren ih
  | atom _ ih => exact .atom ih
  | arrow _ _ iha ihb =>
      rw [Ty.mapSpans, ← spanOf_map g h (by simp), List.map_append, List.map_cons]
      exact .arrow iha ihb

namespace Expr

theorem Derives.mapSpans (g h : Nat → Nat) {n : Phrase} {ls : List Lexeme} {e : Expr}
    (he : Derives n ls e) : Derives n (ls.map (Lexeme.mapSpan g h)) (e.mapSpans g h) := by
  induction he with
  | var => exact .var
  | paren _ ih =>
      rw [List.map_cons, List.map_append]
      exact .paren ih
  | atom _ ih => exact .atom ih
  | app he _ ihe ihf =>
      rw [Expr.mapSpans, ← spanOf_map g h (List.append_ne_nil_of_left_ne_nil he.ne_nil _),
        List.map_append]
      exact .app ihe ihf
  | spine _ ih => exact .spine ih
  | lam hτ _ ih =>
      rw [Expr.mapSpans, ← spanOf_map g h (by simp)]
      simp only [List.map_cons, List.map_append]
      exact .lam (hτ.mapSpans g h) ih

/-! ## Parts -/

/-- The expression `d` is `e`, or a part of it. -/
inductive IsPart (d : Expr) : Expr → Prop where
  | self : IsPart d d
  | body {x τ e s} : IsPart d e → IsPart d (lam x τ e s)
  | fn {e f s} : IsPart d e → IsPart d (app e f s)
  | arg {e f s} : IsPart d f → IsPart d (app e f s)

theorem IsPart.trans {c d e : Expr} (hcd : c.IsPart d) (hde : d.IsPart e) : c.IsPart e := by
  induction hde with
  | self => exact hcd
  | body _ ih => exact .body ih
  | fn _ ih => exact .fn ih
  | arg _ ih => exact .arg ih

/-- The tokens are derived as `e`, by the production that gives the outermost node. -/
inductive Builds : List Lexeme → Expr → Prop where
  | var {x s} : Builds [⟨.ident x, s⟩] (.var x s)
  | app {ls ms e f} : Derives .app ls e → Derives .atom ms f →
      Builds (ls ++ ms) (.app e f (spanOf (ls ++ ms)))
  | lam {s₁ s₂ s₃ s₄ x ls ms τ e} : Ty.Derives .type ls τ → Derives .term ms e →
      Builds (⟨.lambda, s₁⟩ :: ⟨.ident x, s₂⟩ :: ⟨.colon, s₃⟩ :: (ls ++ ⟨.dot, s₄⟩ :: ms))
        (.lam x τ e
          (spanOf (⟨.lambda, s₁⟩ :: ⟨.ident x, s₂⟩ :: ⟨.colon, s₃⟩ :: (ls ++ ⟨.dot, s₄⟩ :: ms))))

namespace Builds

theorem derives {ls : List Lexeme} {e : Expr} (h : Builds ls e) : Derives .term ls e := by
  cases h with
  | var => exact .spine (.atom .var)
  | app he hf => exact .spine (.app he hf)
  | lam hτ he => exact .lam hτ he

theorem span_eq {ls : List Lexeme} {e : Expr} (h : Builds ls e) : e.span = spanOf ls := by
  cases h <;> rfl

end Builds

theorem Derives.exists_builds_of_isPart {n : Phrase} {ls : List Lexeme} {d e : Expr}
    (h : Derives n ls e) (hd : d.IsPart e) : ∃ ms, ms <:+: ls ∧ Builds ms d := by
  induction h with
  | var =>
      cases hd
      exact ⟨_, List.infix_rfl, .var⟩
  | @paren s s' ls e _ ih =>
      obtain ⟨ms, hsub, hms⟩ := ih hd
      exact ⟨ms, hsub.trans (List.infix_append [⟨.lparen, s⟩] ls _), hms⟩
  | atom _ ih => exact ih hd
  | @app ls ls' e f he hf ihe ihf =>
      cases hd with
      | self => exact ⟨_, List.infix_rfl, .app he hf⟩
      | fn hd =>
          obtain ⟨ms, hsub, hms⟩ := ihe hd
          exact ⟨ms, hsub.trans (List.prefix_append ls ls').isInfix, hms⟩
      | arg hd =>
          obtain ⟨ms, hsub, hms⟩ := ihf hd
          exact ⟨ms, hsub.trans (List.suffix_append ls ls').isInfix, hms⟩
  | spine _ ih => exact ih hd
  | @lam s₁ s₂ s₃ s₄ x ls ls' τ e hτ he ih =>
      cases hd with
      | self => exact ⟨_, List.infix_rfl, .lam hτ he⟩
      | body hd =>
          obtain ⟨ms, hsub, hms⟩ := ih hd
          have hbody := List.suffix_append
            (⟨.lambda, s₁⟩ :: ⟨.ident x, s₂⟩ :: ⟨.colon, s₃⟩ :: (ls ++ [⟨.dot, s₄⟩])) ls'
          simp only [List.cons_append, List.append_assoc, List.nil_append] at hbody
          exact ⟨ms, hsub.trans hbody.isInfix, hms⟩

/-! ## Slices of a source -/

/-- What the source has at the span of `e` is read as `e`, alone. -/
def ReadsAlone (e : Expr) (source : String) : Prop :=
  ∃ text, e.span.Spells source text ∧
    parse text = .ok (e.mapSpans (· - e.span.start) (· - e.span.start))

theorem readsAlone_of_isPart {source : String} {d e : Expr} (h : parse source = .ok e)
    (hd : d.IsPart e) : d.ReadsAlone source := by
  obtain ⟨ls, hscan, hls⟩ := parse_eq_ok_iff.mp h
  obtain ⟨ms, hsub, hms⟩ := hls.exists_builds_of_isPart hd
  obtain ⟨text, hspells, htext⟩ := Scan.ofString_slice hscan hsub hms.derives.ne_nil
  -- The slice begins where the span of `d` does, so its tokens move back by that much.
  rw [← hms.span_eq] at hspells htext
  exact ⟨text, hspells, parse_eq_ok_iff.mpr ⟨_, htext, hms.derives.mapSpans _ _⟩⟩

/-- The function of an application stands before the argument. -/
theorem stop_le_start_of_isPart {source : String} {e fn arg : Expr} {s : Span}
    (h : parse source = .ok e) (happ : (app fn arg s).IsPart e) :
    fn.span.stop ≤ arg.span.start := by
  obtain ⟨ls, hscan, hls⟩ := parse_eq_ok_iff.mp h
  obtain ⟨_, hsub, hms⟩ := hls.exists_builds_of_isPart happ
  cases hms with
  | @app ks js _ _ hfn harg =>
      obtain ⟨ks', hks, hfn⟩ := hfn.exists_builds_of_isPart .self
      obtain ⟨js', hjs, harg⟩ := harg.exists_builds_of_isPart .self
      -- The parentheses around the two are in `ks` and `js`, which are next to each other.
      have hordered := (Scan.ofString_eq_iff.mp hscan).pairwise.sublist
        ((hks.sublist.append hjs.sublist).trans hsub.sublist)
      rw [hfn.span_eq, harg.span_eq]
      exact stop_le_start_of_pairwise hordered hfn.derives.ne_nil harg.derives.ne_nil

end Expr

end Stlc
