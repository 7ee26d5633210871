import Stlc.Proofs.BindingGrammar
import Stlc.Proofs.Parts

/-!
# Spans and the parts of a source

The span of a part of a tree says where the source has that part. Cut out of the source and read
alone, with the reader for its kind, it is the same part again, moved to the front; and the parts
of a part lie inside of it. Parentheses around a part are outside of its span, but inside of the
spans of the parts around them.

For expressions this rests on what is known about their parts already. A type is read in three
places, as a source of its own, behind a name and as an annotation, and in each of them it is
derived from tokens that follow one another: `Ty.isFaithfulTo_of_derives` is about all three.

## Key lemmas

* `Ty.Derives.exists_builds_of_isPart` — a part of a type was read from tokens of its own.
* `Expr.Builds.exists_derives_of_lam` — so was an annotation.
* `Ty.isFaithfulTo_of_derives` — a type from some of the tokens of a source.
* `Expr.isFaithfulTo_of_parse` — an expression, with its annotations.
-/

namespace Stlc

/-! ## Parts of a type -/

namespace Ty

inductive IsPart (σ : Ty) : Ty → Prop where
  | self : IsPart σ σ
  | input {a b s} : IsPart σ a → IsPart σ (arrow a b s)
  | output {a b s} : IsPart σ b → IsPart σ (arrow a b s)

inductive Builds : List Lexeme → Ty → Prop where
  | bool {s} : Builds [⟨.bool, s⟩] (.bool s)
  | arrow {s ls ms a b} : Derives .atom ls a → Derives .type ms b →
      Builds (ls ++ ⟨.arrow, s⟩ :: ms) (.arrow a b (spanOf (ls ++ ⟨.arrow, s⟩ :: ms)))

namespace Builds

theorem derives {ls : List Lexeme} {τ : Ty} (h : Builds ls τ) : Derives .type ls τ := by
  cases h with
  | bool => exact .atom .bool
  | arrow ha hb => exact .arrow ha hb

theorem span_eq {ls : List Lexeme} {τ : Ty} (h : Builds ls τ) : τ.span = spanOf ls := by
  cases h <;> rfl

end Builds

theorem Derives.exists_builds_of_isPart {n : Phrase} {ls : List Lexeme} {σ τ : Ty}
    (h : Derives n ls τ) (hσ : σ.IsPart τ) : ∃ ms, ms <:+: ls ∧ Builds ms σ := by
  induction h with
  | bool =>
      cases hσ
      exact ⟨_, List.infix_rfl, .bool⟩
  | @paren s s' ls τ _ ih =>
      obtain ⟨ms, hsub, hms⟩ := ih hσ
      exact ⟨ms, hsub.trans (List.infix_append [⟨.lparen, s⟩] ls _), hms⟩
  | atom _ ih => exact ih hσ
  | @arrow s ls ls' a b ha hb iha ihb =>
      cases hσ with
      | self => exact ⟨_, List.infix_rfl, .arrow ha hb⟩
      | input hσ =>
          obtain ⟨ms, hsub, hms⟩ := iha hσ
          exact ⟨ms, hsub.trans (List.prefix_append ls _).isInfix, hms⟩
      | output hσ =>
          obtain ⟨ms, hsub, hms⟩ := ihb hσ
          have hbehind : ls' <:+: ls ++ ⟨.arrow, s⟩ :: ls' :=
            ((List.suffix_cons _ ls').trans (List.suffix_append ls _)).isInfix
          exact ⟨ms, hsub.trans hbehind, hms⟩

def ReadsAlone (τ : Ty) (source : String) : Prop :=
  ∃ text, τ.span.Spells source text ∧
    parse text = .ok (τ.mapSpans (· - τ.span.start) (· - τ.span.start))

/-- The spans of a type say where its parts are in a source. -/
structure IsFaithfulTo (τ : Ty) (source : String) : Prop where
  readsAlone : ∀ σ : Ty, σ.IsPart τ → σ.ReadsAlone source
  nested : ∀ ρ σ : Ty, ρ.IsPart σ → σ.IsPart τ → ρ.span.IsWithin σ.span

/-- A type that is derived from some of the tokens of a source is faithful to it. -/
theorem isFaithfulTo_of_derives {source : String} {ls ks : List Lexeme} {τ : Ty} {n : Phrase}
    (hscan : Scan.ofString source = ⟨ls, none⟩) (hks : ks <:+: ls) (hτ : Derives n ks τ) :
    τ.IsFaithfulTo source where
  readsAlone := by
    intro σ hσ
    obtain ⟨ms, hsub, hms⟩ := hτ.exists_builds_of_isPart hσ
    obtain ⟨text, hspells, htext⟩ :=
      Scan.ofString_slice hscan (hsub.trans hks) hms.derives.ne_nil
    rw [← hms.span_eq] at hspells htext
    exact ⟨text, hspells, parse_eq_ok_iff.mpr ⟨_, htext, hms.derives.mapSpans _ _⟩⟩
  nested := by
    intro ρ σ hρ hσ
    obtain ⟨ms, hsub, hms⟩ := hτ.exists_builds_of_isPart hσ
    obtain ⟨js, hsub', hjs⟩ := hms.derives.exists_builds_of_isPart hρ
    rw [hms.span_eq, hjs.span_eq]
    exact (Scan.ofString_eq_iff.mp hscan).spanOf_isWithin (hsub.trans hks) hsub'
      hjs.derives.ne_nil

end Ty

/-! ## Parts of an expression -/

namespace Expr

/-- The spans of an expression say where its parts and their annotations are in a source. -/
structure IsFaithfulTo (e : Expr) (source : String) : Prop where
  readsAlone : ∀ d : Expr, d.IsPart e → d.ReadsAlone source
  nested : ∀ c d : Expr, c.IsPart d → d.IsPart e → c.span.IsWithin d.span
  annotated : ∀ x τ body s, (lam x τ body s).IsPart e →
    τ.IsFaithfulTo source ∧ τ.span.IsWithin s
  applied : ∀ fn arg s, (app fn arg s).IsPart e → fn.span.stop ≤ arg.span.start

/-- An annotation is derived from some of the tokens of the abstraction. -/
theorem Builds.exists_derives_of_lam {ls : List Lexeme} {x : String} {τ : Ty} {e : Expr}
    {s : Span} (h : Builds ls (.lam x τ e s)) : ∃ ms, ms <:+: ls ∧ Ty.Derives .type ms τ := by
  cases h with
  | @lam s₁ s₂ s₃ s₄ _ ms js _ _ hτ _ =>
      exact ⟨ms, ⟨[⟨.lambda, s₁⟩, ⟨.ident x, s₂⟩, ⟨.colon, s₃⟩], ⟨.dot, s₄⟩ :: js, by simp⟩, hτ⟩

/-- An expression that is read from a source is faithful to it. -/
theorem isFaithfulTo_of_parse {source : String} {e : Expr} (h : parse source = .ok e) :
    e.IsFaithfulTo source := by
  obtain ⟨ls, hscan, hls⟩ := parse_eq_ok_iff.mp h
  have hlexes := Scan.ofString_eq_iff.mp hscan
  refine ⟨fun d => readsAlone_of_isPart h, ?nested, ?annotated,
    fun fn arg s => stop_le_start_of_isPart h⟩
  case nested =>
    intro c d hc hd
    obtain ⟨ks, hks, hd⟩ := hls.exists_builds_of_isPart hd
    obtain ⟨ms, hms, hc⟩ := hd.derives.exists_builds_of_isPart hc
    rw [hd.span_eq, hc.span_eq]
    exact hlexes.spanOf_isWithin hks hms hc.derives.ne_nil
  case annotated =>
    intro x τ body s hlam
    obtain ⟨ks, hks, hlam⟩ := hls.exists_builds_of_isPart hlam
    obtain ⟨ms, hms, hτ⟩ := hlam.exists_derives_of_lam
    refine ⟨Ty.isFaithfulTo_of_derives hscan (hms.trans hks) hτ, ?_⟩
    -- The span of the annotation may leave out parentheses, which belong to the abstraction.
    obtain ⟨js, hjs, hτ⟩ := hτ.exists_builds_of_isPart .self
    have hs : s = spanOf ks := hlam.span_eq
    rw [hs, hτ.span_eq]
    exact hlexes.spanOf_isWithin hks (hjs.trans hms) hτ.derives.ne_nil

end Expr

/-- Every node that `Expr.parse`, `Ty.parse` or `Binding.parse` gives `IsFaithfulTo` the source:
its span cuts out a text that the same parser reads as that node, moved to the front. Below an
expression this covers the types of its abstractions. -/
theorem spans_faithful (source : String) :
    (∀ e, Expr.parse source = .ok e → e.IsFaithfulTo source) ∧
    (∀ τ, Ty.parse source = .ok τ → τ.IsFaithfulTo source) ∧
    (∀ x τ, Binding.parse source = .ok (.typed x τ) → τ.IsFaithfulTo source) := by
  refine ⟨fun e => Expr.isFaithfulTo_of_parse, ?_, ?_⟩
  · intro τ h
    obtain ⟨ls, hscan, hτ⟩ := Ty.parse_eq_ok_iff.mp h
    exact Ty.isFaithfulTo_of_derives hscan List.infix_rfl hτ
  · intro x τ h
    obtain ⟨ls, hscan, hb⟩ := Binding.parse_eq_ok_iff.mp h
    cases hb with
    | @typed _ s s' ms _ hτ =>
        have hbehind : ms <:+: ⟨.ident x, s⟩ :: ⟨.colon, s'⟩ :: ms :=
          ((List.suffix_cons _ ms).trans (List.suffix_cons _ _)).isInfix
        exact Ty.isFaithfulTo_of_derives hscan hbehind hτ

/-- Parentheses are around a function and inside of an annotation, behind a blank of three bytes,
and a comment is in front of the argument. -/
theorem spans_faithful_parentheses :
    let source := "(\\f:\u3000(Bool)->Bool. (f)) // a\n g"
    let domain : Ty := .bool ⟨8, 12⟩
    let function : Ty := .arrow domain (.bool ⟨15, 19⟩) ⟨7, 19⟩
    let fn : Expr := .lam "f" function (.var "f" ⟨22, 23⟩) ⟨1, 24⟩
    Expr.parse source = .ok (.app fn (.var "g" ⟨32, 33⟩) ⟨0, 33⟩) ∧
      fn.ReadsAlone source ∧ domain.ReadsAlone source ∧ domain.span.IsWithin fn.span := by
  intro source domain function fn
  have h : Expr.parse source = .ok (.app fn (.var "g" ⟨32, 33⟩) ⟨0, 33⟩) := by cbv
  have he := (spans_faithful source).1 _ h
  obtain ⟨hfaithful, hwithin⟩ := he.annotated _ _ _ _ (.fn .self)
  have hdomain := hfaithful.nested domain function (.input .self) .self
  exact ⟨h, he.readsAlone fn (.fn .self), hfaithful.readsAlone domain (.input .self),
    hwithin.start_le.trans hdomain.start_le, hdomain.stop_le.trans hwithin.stop_le⟩

end Stlc
