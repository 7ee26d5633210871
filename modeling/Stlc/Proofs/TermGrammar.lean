import Stlc.Parse.Expr
import Stlc.Proofs.TypeGrammar

/-!
# The grammar of terms

`Expr.Derives` is the grammar, read as the trees it gives to sequences of tokens, and
`Expr.parse_eq_ok_iff` says that the reader finds these trees and no others. The two directions go
as they do for types; what is new is that an atom is read after the atoms it is applied to
(`Spine.extend`), and that the reader of types runs inside of the one of terms
(`feed_type`, `Progress.step_type_cases`).
-/

namespace Stlc

namespace Expr

inductive Phrase where
  | term
  | app
  | atom

inductive Derives : Phrase → List Lexeme → Expr → Prop where
  | var {x s} : Derives .atom [⟨.ident x, s⟩] (.var x s)
  | paren {s s' ls e} : Derives .term ls e →
      Derives .atom (⟨.lparen, s⟩ :: (ls ++ [⟨.rparen, s'⟩])) e
  | atom {ls e} : Derives .atom ls e → Derives .app ls e
  | app {ls ms e f} : Derives .app ls e → Derives .atom ms f →
      Derives .app (ls ++ ms) (.app e f (spanOf (ls ++ ms)))
  | spine {ls e} : Derives .app ls e → Derives .term ls e
  | lam {s₁ s₂ s₃ s₄ x ls ms τ e} : Ty.Derives .type ls τ → Derives .term ms e →
      Derives .term (⟨.lambda, s₁⟩ :: ⟨.ident x, s₂⟩ :: ⟨.colon, s₃⟩ :: (ls ++ ⟨.dot, s₄⟩ :: ms))
        (.lam x τ e
          (spanOf (⟨.lambda, s₁⟩ :: ⟨.ident x, s₂⟩ :: ⟨.colon, s₃⟩ :: (ls ++ ⟨.dot, s₄⟩ :: ms))))

theorem Derives.ne_nil {n : Phrase} {ls : List Lexeme} {e : Expr} (h : Derives n ls e) :
    ls ≠ [] := by
  induction h with
  | var => simp
  | paren => simp
  | atom _ ih => exact ih
  | app _ _ ih => simp [ih]
  | spine _ ih => exact ih
  | lam => simp

theorem spanOf_lam {s₁ s₂ s₃ s₄ : Span} {x : String} {ls ms : List Lexeme} (hms : ms ≠ []) :
    spanOf (⟨.lambda, s₁⟩ :: ⟨.ident x, s₂⟩ :: ⟨.colon, s₃⟩ :: (ls ++ ⟨.dot, s₄⟩ :: ms)) =
      ⟨s₁.start, (spanOf ms).stop⟩ := by
  rw [spanOf_cons (by simp), spanOf_cons (by simp), spanOf_cons (by simp)]
  have hdot : spanOf (ls ++ ⟨.dot, s₄⟩ :: ms) = spanOf (ls ++ [⟨.dot, s₄⟩] ++ ms) := by simp
  rw [hdot, spanOf_append (by simp) hms]

/-! ## Feeding a derivation -/

theorem reader_step (p : Progress) (l : Lexeme) : reader.step p l = p.step l := rfl

/-- The reader of types refuses dots, so that a dot always ends a type. -/
theorem Progress.step_type {p q : Ty.Progress} {l : Lexeme} (fs : List Frame) (n : Nat) (x : String)
    (h : p.step l = some q) : step (.type fs n x p) l = some (.type fs n x q) := by
  obtain ⟨t, s⟩ := l
  cases t with
  | dot => cases p <;> cases h -- no state of the reader of types takes a dot
  | _ => simp [step, h]

theorem feed_type {p q : Ty.Progress} {ls : List Lexeme} (fs : List Frame) (n : Nat) (x : String)
    (h : Ty.reader.feed p ls = some q) :
    reader.feed (.type fs n x p) ls = some (.type fs n x q) :=
  Reader.feed_map (Progress.type fs n x) (Progress.step_type fs n x) h

/-- The state in which an atom comes next, after the atoms it is applied to. -/
def Progress.before (fs : List Frame) : Option Spine → Progress
  | none => .start fs
  | some head => .after fs head

/-- What feeding the tokens of a phrase does to a state in which the phrase may come next. -/
def Phrase.Fed (ls : List Lexeme) (e : Expr) (fs : List Frame) : Phrase → Prop
  | .atom => ∀ head?, reader.feed (.before fs head?) ls =
      some (.after fs (.extend head? e (spanOf ls)))
  | .app => reader.feed (.start fs) ls = some (.after fs ⟨e, spanOf ls⟩)
  | .term => ∃ gs head, reader.feed (.start fs) ls = some (.after (gs ++ fs) head) ∧
      head.extent.stop = (spanOf ls).stop ∧
      Frame.close (gs ++ fs) head.expr head.extent.stop = Frame.close fs e head.extent.stop

theorem Derives.fed {n : Phrase} {ls : List Lexeme} {e : Expr} (h : Derives n ls e)
    (fs : List Frame) : n.Fed ls e fs := by
  induction h generalizing fs with
  | var =>
      intro head?
      cases head? <;> rfl
  | @paren s s' ls e _ ih =>
      intro head?
      obtain ⟨gs, head, hfeed, _, hclose⟩ := ih (.paren head? s.start :: fs)
      have hlparen : reader.step (.before fs head?) ⟨.lparen, s⟩ =
          some (.start (.paren head? s.start :: fs)) := by
        cases head? <;> rfl
      have hrparen : reader.step (.after (gs ++ .paren head? s.start :: fs) head) ⟨.rparen, s'⟩ =
          some (.after fs (.extend head? e ⟨s.start, s'.stop⟩)) := by
        rw [reader_step, Progress.step, hclose]
        rfl
      simp only [Reader.feed_cons, hlparen, Reader.feed_append, hfeed, hrparen, Ty.spanOf_paren,
        Option.bind_eq_bind, Option.bind_some, Reader.feed_nil]
  | atom _ ih => exact ih fs none
  | @app ls ms e f he hf ihe ihf =>
      have hls : reader.feed (.start fs) ls = some (.after fs ⟨e, spanOf ls⟩) := ihe fs
      have hms := ihf fs (some ⟨e, spanOf ls⟩)
      show reader.feed _ _ = _
      rw [Reader.feed_append, hls, spanOf_append he.ne_nil hf.ne_nil]
      exact hms
  | @spine ls e _ ih => exact ⟨[], ⟨e, spanOf ls⟩, ih fs, rfl, rfl⟩
  | @lam s₁ s₂ s₃ s₄ x ls ms τ e hτ he ih =>
      obtain ⟨gs, head, hfeed, hstop, hclose⟩ := ih (.body s₁.start x τ :: fs)
      obtain ⟨p, hp, hresult⟩ := Ty.derives_iff.mp hτ
      have htype : reader.feed (.type fs s₁.start x (.start [])) ls =
          some (.type fs s₁.start x p) := feed_type fs s₁.start x hp
      have hdot : reader.step (.type fs s₁.start x p) ⟨.dot, s₄⟩ =
          some (.start (.body s₁.start x τ :: fs)) := by
        rw [reader_step, Progress.step, hresult]
        rfl
      rw [spanOf_lam he.ne_nil]
      refine ⟨gs ++ [.body s₁.start x τ], head, ?_, ?_, ?_⟩
      · have hbody : reader.feed (.type fs s₁.start x (.start [])) (ls ++ ⟨.dot, s₄⟩ :: ms) =
            some (.after (gs ++ .body s₁.start x τ :: fs) head) := by
          rw [Reader.feed_append, htype, Option.bind_eq_bind, Option.bind_some, Reader.feed_cons,
            hdot]
          exact hfeed
        rw [List.append_assoc]
        exact hbody
      · rw [spanOf_lam he.ne_nil, hstop]
      · rw [List.append_assoc, ← hstop]
        exact hclose

/-! ## Reading a derivation back -/

/-- The tokens of the atoms that the next atom is an argument of. -/
inductive Spine.Reads : Option Spine → List Lexeme → Prop where
  | none : Reads none []
  | some {ls e} : Derives .app ls e → Reads (some ⟨e, spanOf ls⟩) ls

theorem Spine.Reads.extend {head? : Option Spine} {ks ls : List Lexeme} {e : Expr}
    (h : Reads head? ks) (he : Derives .atom ls e) :
    ∃ f, extend head? e (spanOf ls) = ⟨f, spanOf (ks ++ ls)⟩ ∧ Derives .app (ks ++ ls) f := by
  cases h with
  | none => exact ⟨e, rfl, .atom he⟩
  | @some _ f hf =>
      refine ⟨_, ?_, .app hf he⟩
      rw [Spine.extend, spanOf_append hf.ne_nil he.ne_nil]

inductive Frame.Opens : List Frame → List Lexeme → Prop where
  | nil : Opens [] []
  | paren {s fs ks ls head?} : Opens fs ks → Spine.Reads head? ls →
      Opens (.paren head? s.start :: fs) (ks ++ (ls ++ [⟨.lparen, s⟩]))
  | body {s₁ s₂ s₃ s₄ x fs ks ls τ} : Opens fs ks → Ty.Derives .type ls τ →
      Opens (.body s₁.start x τ :: fs) (ks ++
        (⟨.lambda, s₁⟩ :: ⟨.ident x, s₂⟩ :: ⟨.colon, s₃⟩ :: (ls ++ [⟨.dot, s₄⟩])))

inductive Frame.Closed : List Frame → List Lexeme → Prop where
  | nil : Closed [] []
  | paren {s fs ks ls head?} : Opens fs ks → Spine.Reads head? ls →
      Closed (.paren head? s.start :: fs) (ks ++ (ls ++ [⟨.lparen, s⟩]))

theorem Frame.Opens.close {fs : List Frame} {ks ls : List Lexeme} {e : Expr} (h : Opens fs ks)
    (he : Derives .term ls e) : ∃ ks' ls' e' fs', Frame.close fs e (spanOf ls).stop = (e', fs') ∧
      ks ++ ls = ks' ++ ls' ∧ Frame.Closed fs' ks' ∧ Derives .term ls' e' := by
  induction h generalizing ls e with
  | nil => exact ⟨[], ls, e, [], rfl, rfl, .nil, he⟩
  | paren h hhead _ => exact ⟨_, ls, e, _, rfl, rfl, .paren h hhead, he⟩
  | @body s₁ s₂ s₃ s₄ x fs ks ms τ h hτ ih =>
      have hlam : Derives .term
          (⟨.lambda, s₁⟩ :: ⟨.ident x, s₂⟩ :: ⟨.colon, s₃⟩ :: (ms ++ ⟨.dot, s₄⟩ :: ls)) _ :=
        .lam hτ he
      obtain ⟨ks', ls', e', fs', hclose, heq, hclosed, he'⟩ := ih hlam
      refine ⟨ks', ls', e', fs', ?_, ?_, hclosed, he'⟩
      · rw [spanOf_lam he.ne_nil] at hclose
        exact hclose
      · rw [← heq]
        simp

inductive Progress.Reads : Progress → List Lexeme → Prop where
  | start {fs ks} : Frame.Opens fs ks → Reads (.start fs) ks
  | after {fs ks ls e} : Frame.Opens fs ks → Derives .app ls e →
      Reads (.after fs ⟨e, spanOf ls⟩) (ks ++ ls)
  | binder {s fs ks} : Frame.Opens fs ks → Reads (.binder fs s.start) (ks ++ [⟨.lambda, s⟩])
  | colon {s s' x fs ks} : Frame.Opens fs ks →
      Reads (.colon fs s.start x) (ks ++ [⟨.lambda, s⟩, ⟨.ident x, s'⟩])
  | type {s₁ s₂ s₃ x fs ks ls p} : Frame.Opens fs ks → p.Reads ls →
      Reads (.type fs s₁.start x p)
        (ks ++ (⟨.lambda, s₁⟩ :: ⟨.ident x, s₂⟩ :: ⟨.colon, s₃⟩ :: ls))

theorem Progress.step_type_cases {fs : List Frame} {n : Nat} {x : String} {p : Ty.Progress}
    {l : Lexeme} {q : Progress} (h : step (.type fs n x p) l = some q) :
    (∃ s τ, l = ⟨.dot, s⟩ ∧ p.result? = some τ ∧ q = .start (.body n x τ :: fs)) ∨
      ∃ p', p.step l = some p' ∧ q = .type fs n x p' := by
  obtain ⟨t, s⟩ := l
  cases t with
  | dot =>
      simp only [step, Option.map_eq_some_iff] at h
      obtain ⟨τ, hτ, rfl⟩ := h
      exact .inl ⟨s, τ, rfl, hτ, rfl⟩
  | _ =>
      simp only [step, Option.map_eq_some_iff] at h
      obtain ⟨p', hp', rfl⟩ := h
      exact .inr ⟨p', hp', rfl⟩

/-- One more atom, after the atoms it is applied to. -/
theorem Progress.Reads.extend {fs : List Frame} {ks ms ls : List Lexeme} {head? : Option Spine}
    {e : Expr} (hfs : Frame.Opens fs ks) (hhead : Spine.Reads head? ms) (he : Derives .atom ls e) :
    Reads (.after fs (.extend head? e (spanOf ls))) (ks ++ (ms ++ ls)) := by
  obtain ⟨f, hextend, hf⟩ := hhead.extend he
  rw [hextend]
  exact .after hfs hf

theorem Progress.Reads.step {p q : Progress} {ks : List Lexeme} {l : Lexeme} (h : p.Reads ks)
    (hstep : p.step l = some q) : q.Reads (ks ++ [l]) := by
  obtain ⟨t, s⟩ := l
  cases h with
  | @start fs ks hfs =>
      cases t with
      | ident x =>
          cases hstep
          exact .extend hfs .none .var
      | lparen =>
          cases hstep
          exact .start (.paren hfs .none)
      | lambda =>
          cases hstep
          exact .binder hfs
      | _ => cases hstep
  | @after fs ks ls e hfs he =>
      rw [List.append_assoc]
      cases t with
      | ident x =>
          cases hstep
          exact .extend hfs (.some he) .var
      | lparen =>
          cases hstep
          exact .start (.paren hfs (.some he))
      | rparen =>
          -- What is closed stands behind an open parenthesis, or else the token is refused.
          obtain ⟨ks', ls', e', fs', hclose, heq, hclosed, he'⟩ := hfs.close (.spine he)
          rw [Progress.step, hclose] at hstep
          cases hclosed with
          | nil => cases hstep
          | @paren s' fs' ks' ms head? hfs' hhead =>
              cases hstep
              have hparen : Derives .atom (⟨.lparen, s'⟩ :: (ls' ++ [⟨.rparen, s⟩])) e' :=
                .paren he'
              have hspan : spanOf (⟨.lparen, s'⟩ :: (ls' ++ [⟨.rparen, s⟩])) =
                  ⟨s'.start, s.stop⟩ := Ty.spanOf_paren
              rw [← hspan, ← List.append_assoc, heq]
              simp only [List.append_assoc, List.cons_append, List.nil_append]
              exact .extend hfs' hhead hparen
      | _ => cases hstep
  | @binder s' fs ks hfs =>
      cases t with
      | ident x =>
          cases hstep
          rw [List.append_assoc]
          exact .colon hfs
      | _ => cases hstep
  | @colon _ _ _ _ _ hfs =>
      cases t with
      | colon =>
          cases hstep
          rw [List.append_assoc]
          exact .type hfs (.start .nil)
      | _ => cases hstep
  | @type s₁ s₂ s₃ x fs ks ls p hfs hp =>
      rw [List.append_assoc]
      rcases step_type_cases hstep with ⟨s₄, τ, hdot, hτ, rfl⟩ | ⟨p', hp', rfl⟩
      · cases hdot
        exact .start (.body hfs (hp.result hτ))
      · exact .type hfs (hp.step hp')

theorem Progress.Reads.result {p : Progress} {ks : List Lexeme} {e : Expr} (h : p.Reads ks)
    (hresult : p.result? = some e) : Derives .term ks e := by
  cases h with
  | after hfs he =>
      obtain ⟨ks', ls', e', fs', hclose, heq, hclosed, he'⟩ := hfs.close (.spine he)
      rw [result?, hclose] at hresult
      cases hclosed with
      | nil =>
          cases hresult
          rw [heq]
          exact he'
      | paren => cases hresult
  | _ => cases hresult

/-! ## The reader and the grammar -/

/-- A sequence of tokens leads to a term exactly when it is derived as that term. -/
theorem derives_iff {ls : List Lexeme} {e : Expr} :
    Derives .term ls e ↔ ∃ p, reader.feed reader.start ls = some p ∧ p.result? = some e := by
  constructor
  · intro h
    obtain ⟨gs, head, hfeed, _, hclose⟩ := h.fed []
    refine ⟨_, hfeed, ?_⟩
    rw [Progress.result?, hclose]
    rfl
  · rintro ⟨p, hfeed, hresult⟩
    have hreads : p.Reads ([] ++ ls) :=
      Reader.feed_invariant Progress.Reads Progress.Reads.step (.start .nil) hfeed
    exact hreads.result hresult

/-- The text of a term is one whose tokens are derived as that term. -/
theorem parse_eq_ok_iff {source : String} {e : Expr} :
    parse source = .ok e ↔ ∃ ls, Scan.ofString source = ⟨ls, none⟩ ∧ Derives .term ls e := by
  rw [parse, Reader.parse_eq_ok_iff]
  simp only [derives_iff]
  rfl

end Expr

end Stlc
