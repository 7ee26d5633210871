import Stlc.Parse.Ty
import Stlc.Proofs.Reading

/-!
# The grammar of types

`Ty.Derives` is the grammar, read as the trees it gives to sequences of tokens. `Ty.parse_eq_ok_iff`
says that the reader finds these trees and no others.

One direction feeds the tokens of a derivation to the reader (`Derives.fed`). In the other one, what
has been read so far is accounted for by the frames that are open (`Frame.Opens`, `Progress.Reads`),
and closing frames puts derivations together (`Frame.Opens.close`).
-/

namespace Stlc

namespace Ty

inductive Phrase where
  | type
  | atom

/-- The tokens `ls` form a phrase, and `τ` is its tree. -/
inductive Derives : Phrase → List Lexeme → Ty → Prop where
  | bool {s} : Derives .atom [⟨.bool, s⟩] (.bool s)
  | paren {s s' ls τ} : Derives .type ls τ →
      Derives .atom (⟨.lparen, s⟩ :: (ls ++ [⟨.rparen, s'⟩])) τ
  | atom {ls τ} : Derives .atom ls τ → Derives .type ls τ
  | arrow {s ls ms σ τ} : Derives .atom ls σ → Derives .type ms τ →
      Derives .type (ls ++ ⟨.arrow, s⟩ :: ms) (.arrow σ τ (spanOf (ls ++ ⟨.arrow, s⟩ :: ms)))

theorem Derives.ne_nil {n : Phrase} {ls : List Lexeme} {τ : Ty} (h : Derives n ls τ) :
    ls ≠ [] := by
  induction h with
  | bool => simp
  | paren => simp
  | atom _ ih => exact ih
  | arrow => simp

/-! ## Feeding a derivation -/

theorem reader_step (p : Progress) (l : Lexeme) : reader.step p l = p.step l := rfl

theorem spanOf_paren {s s' : Span} {ls : List Lexeme} :
    spanOf (⟨.lparen, s⟩ :: (ls ++ [⟨.rparen, s'⟩])) = ⟨s.start, s'.stop⟩ := by
  rw [← List.cons_append, spanOf_append (by simp) (by simp)]
  rfl

theorem Derives.spanOf_arrow {s : Span} {n : Phrase} {ls ms : List Lexeme} {σ : Ty}
    (h : Derives n ls σ) (hms : ms ≠ []) :
    spanOf (ls ++ ⟨.arrow, s⟩ :: ms) = ⟨(spanOf ls).start, (spanOf ms).stop⟩ := by
  rw [spanOf_append h.ne_nil (by simp), spanOf_cons hms]

/-- What feeding the tokens of a phrase does to a state in which an atom comes next. -/
def Phrase.Fed (ls : List Lexeme) (τ : Ty) (fs : List Frame) : Phrase → Prop
  | .atom => reader.feed (.start fs) ls = some (.after fs τ (spanOf ls))
  | .type => ∃ gs a ext, reader.feed (.start fs) ls = some (.after (gs ++ fs) a ext) ∧
      ext.stop = (spanOf ls).stop ∧
      Frame.close (gs ++ fs) a ext.stop = Frame.close fs τ ext.stop

theorem Derives.fed {n : Phrase} {ls : List Lexeme} {τ : Ty} (h : Derives n ls τ)
    (fs : List Frame) : n.Fed ls τ fs := by
  induction h generalizing fs with
  | bool => rfl
  | @paren s s' ls τ _ ih =>
      obtain ⟨gs, a, ext, hfeed, _, hclose⟩ := ih (.paren s.start :: fs)
      have hlparen : reader.step (.start fs) ⟨.lparen, s⟩ = some (.start (.paren s.start :: fs)) :=
        rfl
      -- The arrows that are open inside end at the closing parenthesis.
      have hrparen : reader.step (.after (gs ++ .paren s.start :: fs) a ext) ⟨.rparen, s'⟩ =
          some (.after fs τ ⟨s.start, s'.stop⟩) := by
        rw [reader_step, Progress.step, hclose]
        rfl
      show reader.feed _ _ = _
      simp only [Reader.feed_cons, hlparen, Reader.feed_append, hfeed, hrparen, spanOf_paren,
        Option.bind_eq_bind, Option.bind_some, Reader.feed_nil]
  | @atom ls τ _ ih => exact ⟨[], τ, spanOf ls, ih fs, rfl, rfl⟩
  | @arrow s ls ms σ τ hσ hτ ihσ ihτ =>
      obtain ⟨gs, a, ext, hfeed, hstop, hclose⟩ := ihτ (.output (spanOf ls).start σ :: fs)
      have harrow : reader.step (.after fs σ (spanOf ls)) ⟨.arrow, s⟩ =
          some (.start (.output (spanOf ls).start σ :: fs)) := rfl
      have hls : reader.feed (.start fs) ls = some (.after fs σ (spanOf ls)) := ihσ fs
      rw [hσ.spanOf_arrow hτ.ne_nil]
      refine ⟨gs ++ [.output (spanOf ls).start σ], a, ext, ?_, ?_, ?_⟩
      · simp only [Reader.feed_append, hls, Reader.feed_cons, harrow, Option.bind_eq_bind,
          Option.bind_some, List.append_assoc, List.cons_append, List.nil_append]
        exact hfeed
      · rw [hσ.spanOf_arrow hτ.ne_nil, hstop]
      · rw [List.append_assoc, ← hstop]
        exact hclose

/-! ## Reading a derivation back -/

/-- The tokens `ks` have been read, and `fs` is what they leave open. -/
inductive Frame.Opens : List Frame → List Lexeme → Prop where
  | nil : Opens [] []
  | paren {s fs ks} : Opens fs ks → Opens (.paren s.start :: fs) (ks ++ [⟨.lparen, s⟩])
  | output {s fs ks ls σ} : Opens fs ks → Derives .atom ls σ →
      Opens (.output (spanOf ls).start σ :: fs) (ks ++ (ls ++ [⟨.arrow, s⟩]))

/-- What is left when the arrows down to the innermost parenthesis are closed. -/
inductive Frame.Closed : List Frame → List Lexeme → Prop where
  | nil : Closed [] []
  | paren {s fs ks} : Opens fs ks → Closed (.paren s.start :: fs) (ks ++ [⟨.lparen, s⟩])

theorem Frame.Opens.close {fs : List Frame} {ks ls : List Lexeme} {τ : Ty} (h : Opens fs ks)
    (hτ : Derives .type ls τ) : ∃ ks' ls' τ' fs', Frame.close fs τ (spanOf ls).stop = (τ', fs') ∧
      ks ++ ls = ks' ++ ls' ∧ Frame.Closed fs' ks' ∧ Derives .type ls' τ' := by
  induction h generalizing ls τ with
  | nil => exact ⟨[], ls, τ, [], rfl, rfl, .nil, hτ⟩
  | @paren s fs ks h _ => exact ⟨_, ls, τ, _, rfl, rfl, .paren h, hτ⟩
  | @output s fs ks ms σ h hσ ih =>
      -- The arrow is a larger type, which ends where its output does.
      have harrow := Derives.arrow (s := s) hσ hτ
      obtain ⟨ks', ls', τ', fs', hclose, heq, hclosed, hτ'⟩ := ih harrow
      refine ⟨ks', ls', τ', fs', ?_, ?_, hclosed, hτ'⟩
      · rw [hσ.spanOf_arrow hτ.ne_nil] at hclose
        exact hclose
      · rw [← heq]
        simp

/-- The tokens `ks` have been read, and they lead to a state. -/
inductive Progress.Reads : Progress → List Lexeme → Prop where
  | start {fs ks} : Frame.Opens fs ks → Reads (.start fs) ks
  | after {fs ks ls τ} : Frame.Opens fs ks → Derives .atom ls τ →
      Reads (.after fs τ (spanOf ls)) (ks ++ ls)

theorem Progress.Reads.step {p q : Progress} {ks : List Lexeme} {l : Lexeme} (h : p.Reads ks)
    (hstep : p.step l = some q) : q.Reads (ks ++ [l]) := by
  obtain ⟨t, s⟩ := l
  cases h with
  | @start fs ks hfs =>
      cases t with
      | bool =>
          cases hstep
          exact .after hfs .bool
      | lparen =>
          cases hstep
          exact .start (.paren hfs)
      | _ => cases hstep
  | @after fs ks ls τ hfs hτ =>
      cases t with
      | arrow =>
          cases hstep
          rw [List.append_assoc]
          exact .start (.output hfs hτ)
      | rparen =>
          -- What is closed stands behind an open parenthesis, or else the token is refused.
          obtain ⟨ks', ls', τ', fs', hclose, heq, hclosed, hτ'⟩ := hfs.close (.atom hτ)
          rw [Progress.step, hclose] at hstep
          cases hclosed with
          | nil => cases hstep
          | @paren s' fs' ks' hfs' =>
              cases hstep
              have hparen : Derives .atom (⟨.lparen, s'⟩ :: (ls' ++ [⟨.rparen, s⟩])) τ' :=
                .paren hτ'
              have hspan : spanOf (⟨.lparen, s'⟩ :: (ls' ++ [⟨.rparen, s⟩])) =
                  ⟨s'.start, s.stop⟩ := spanOf_paren
              rw [← hspan, heq]
              simp only [List.append_assoc, List.cons_append, List.nil_append]
              exact .after hfs' hparen
      | _ => cases hstep

theorem Progress.Reads.result {p : Progress} {ks : List Lexeme} {τ : Ty} (h : p.Reads ks)
    (hresult : p.result? = some τ) : Derives .type ks τ := by
  cases h with
  | start => cases hresult
  | after hfs hτ =>
      obtain ⟨ks', ls', τ', fs', hclose, heq, hclosed, hτ'⟩ := hfs.close (.atom hτ)
      rw [result?, hclose] at hresult
      cases hclosed with
      | nil =>
          cases hresult
          rw [heq]
          exact hτ'
      | paren => cases hresult

/-! ## The reader and the grammar -/

/-- A sequence of tokens leads to a type exactly when it is derived as that type. -/
theorem derives_iff {ls : List Lexeme} {τ : Ty} :
    Derives .type ls τ ↔ ∃ p, reader.feed reader.start ls = some p ∧ p.result? = some τ := by
  constructor
  · intro h
    obtain ⟨gs, a, ext, hfeed, _, hclose⟩ := h.fed []
    refine ⟨_, hfeed, ?_⟩
    rw [Progress.result?, hclose]
    rfl
  · rintro ⟨p, hfeed, hresult⟩
    have hreads : p.Reads ([] ++ ls) :=
      Reader.feed_invariant Progress.Reads Progress.Reads.step (.start .nil) hfeed
    exact hreads.result hresult

/-- The text of a type is one whose tokens are derived as that type. -/
theorem parse_eq_ok_iff {source : String} {τ : Ty} :
    parse source = .ok τ ↔ ∃ ls, Scan.ofString source = ⟨ls, none⟩ ∧ Derives .type ls τ := by
  rw [parse, Reader.parse_eq_ok_iff]
  simp only [derives_iff]
  rfl

end Ty

end Stlc
