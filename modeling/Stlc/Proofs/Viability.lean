import Stlc.Proofs.BindingGrammar
import Stlc.Proofs.TermGrammar

/-!
# Viable prefixes

A sequence of tokens is a viable prefix of a language if it can be continued to a sentence of it
(`Viable`). The readers take viable prefixes and no others: each token that a reader takes can still
be followed by others that make the text well formed, and whatever its reports name as possible is a
token that it takes (`Reader.IsPrompt`). Both hold in every state, whether it can be reached or not.

A text is completed by closing all parentheses, after an atom or a type where one is due.

## Key lemmas

* `Ty.reader_isPrompt`, `Expr.reader_isPrompt`, `Binding.reader_isPrompt` — the readers are prompt.
* `Reader.IsPrompt.viable_iff`, `Reader.IsPrompt.viable_append_iff` — a prompt reader takes the
  viable prefixes.
-/

namespace Stlc

def Viable {α : Type} (Sentence : List Lexeme → α → Prop) (ls : List Lexeme) : Prop :=
  ∃ ms a, Sentence (ls ++ ms) a

/-! ## Prompt readers -/

namespace Reader

variable {σ α : Type} {R : Reader σ α}

/-- From the state on, some tokens lead to a result. -/
def Completable (R : Reader σ α) (s : σ) : Prop :=
  ∃ ls s' a, R.feed s ls = some s' ∧ R.result? s' = some a

/-- The reader never takes a token in vain, and what it reports as possible it takes. -/
structure IsPrompt (R : Reader σ α) : Prop where
  completable : ∀ s, R.Completable s
  takes_expected : ∀ s next (l : Lexeme), l.token.terminal ∈ R.expected s next →
    ∃ s', R.step s l = some s'

theorem Completable.of_result {s : σ} {a : α} (h : R.result? s = some a) : R.Completable s :=
  ⟨[], s, a, rfl, h⟩

theorem Completable.of_step {s s' : σ} {l : Lexeme} (h : R.step s l = some s')
    (hs' : R.Completable s') : R.Completable s := by
  obtain ⟨ls, s'', a, hfeed, ha⟩ := hs'
  refine ⟨l :: ls, s'', a, ?_, ha⟩
  rw [feed_cons, h]
  exact hfeed

theorem Completable.of_feed {s s' : σ} {ls : List Lexeme} (h : R.feed s ls = some s')
    (hs' : R.Completable s') : R.Completable s := by
  obtain ⟨ms, s'', a, hfeed, ha⟩ := hs'
  refine ⟨ls ++ ms, s'', a, ?_, ha⟩
  rw [feed_append, h]
  exact hfeed

/-- The sentences are the sequences of tokens that lead to a result. -/
def Recognizes (R : Reader σ α) (Sentence : List Lexeme → α → Prop) : Prop :=
  ∀ ls a, Sentence ls a ↔ ∃ s, R.feed R.start ls = some s ∧ R.result? s = some a

variable {Sentence : List Lexeme → α → Prop}

theorem Recognizes.sentence_iff (h : R.Recognizes Sentence) {ls : List Lexeme} {s : σ}
    (hs : R.feed R.start ls = some s) (a : α) : Sentence ls a ↔ R.result? s = some a := by
  rw [h ls a, hs]
  simp only [Option.some.injEq, exists_eq_left']

/-- The prefixes of the sentences are all that a prompt reader takes. -/
theorem IsPrompt.viable_iff (hR : R.IsPrompt) (h : R.Recognizes Sentence) {ls : List Lexeme} :
    Viable Sentence ls ↔ ∃ s, R.feed R.start ls = some s := by
  simp only [Viable, h _ _, feed_append, Option.bind_eq_bind, Option.bind_eq_some_iff]
  constructor
  · rintro ⟨_, _, _, ⟨s, hs, _⟩, _⟩
    exact ⟨s, hs⟩
  · rintro ⟨s, hs⟩
    obtain ⟨ms, s', a, hfeed, ha⟩ := hR.completable s
    exact ⟨ms, a, s', ⟨s, hs, hfeed⟩, ha⟩

/-- After tokens that lead to a state, those can follow that the state takes. -/
theorem IsPrompt.viable_append_iff (hR : R.IsPrompt) (h : R.Recognizes Sentence)
    {ls : List Lexeme} {s : σ} (hs : R.feed R.start ls = some s) (l : Lexeme) :
    Viable Sentence (ls ++ [l]) ↔ ∃ s', R.step s l = some s' := by
  have hfeed : R.feed R.start (ls ++ [l]) = R.step s l := by
    rw [feed_append, hs]
    exact Option.bind_fun_some (R.step s l)
  rw [hR.viable_iff h, hfeed]

end Reader

/-- A report lists what may continue a phrase, and what ends it. -/
theorem mem_expectedAfter {more : List Terminal} {ender other next : Option Terminal}
    {t : Terminal} (h : t ∈ expectedAfter more ender other next) : t ∈ more ∨ some t = ender := by
  simp only [expectedAfter, List.mem_filter, Bool.or_eq_true, Bool.and_eq_true,
    decide_eq_true_eq, beq_iff_eq] at h
  exact h.2.imp_left And.left

/-! ## Types -/

namespace Ty

/-- Arrows are closed down to the bottom, if no parenthesis is open. -/
theorem Frame.close_of_not_enclosed {fs : List Frame} (h : fs.any isParen = false) (τ : Ty)
    (stop : Nat) : ∃ τ', close fs τ stop = (τ', []) := by
  induction fs generalizing τ with
  | nil => exact ⟨τ, rfl⟩
  | cons f fs ih =>
      cases f with
      | paren first => cases h
      | output start input => exact ih h (.arrow input τ ⟨start, stop⟩)

/-- Arrows are closed down to a parenthesis, if one is open. -/
theorem Frame.close_of_enclosed {fs : List Frame} (h : fs.any isParen) (τ : Ty) (stop : Nat) :
    ∃ τ' first gs, close fs τ stop = (τ', .paren first :: gs) ∧ gs.length < fs.length := by
  induction fs generalizing τ with
  | nil => cases h
  | cons f fs ih =>
      cases f with
      | paren first => exact ⟨τ, first, fs, rfl, Nat.lt_succ_self _⟩
      | output start input =>
          obtain ⟨τ', first, gs, hclose, hlt⟩ := ih h (.arrow input τ ⟨start, stop⟩)
          exact ⟨τ', first, gs, hclose, Nat.lt_succ_of_lt hlt⟩

namespace Progress

theorem exists_result_of_not_enclosed {fs : List Frame} (h : fs.any Frame.isParen = false) (τ : Ty)
    (ext : Span) : ∃ τ', result? (.after fs τ ext) = some τ' := by
  obtain ⟨τ', hclose⟩ := Frame.close_of_not_enclosed h τ ext.stop
  exact ⟨τ', by rw [result?, hclose]⟩

theorem exists_step_of_enclosed {fs : List Frame} (h : fs.any Frame.isParen) (τ : Ty) (ext : Span)
    (s : Span) :
    ∃ gs τ' ext', reader.step (.after fs τ ext) ⟨.rparen, s⟩ = some (.after gs τ' ext') ∧
      gs.length < fs.length := by
  obtain ⟨τ', first, gs, hclose, hlt⟩ := Frame.close_of_enclosed h τ ext.stop
  refine ⟨gs, τ', ⟨first, s.stop⟩, ?_, hlt⟩
  rw [reader_step, step, hclose]

theorem completable_after (fs : List Frame) (τ : Ty) (ext : Span) :
    reader.Completable (.after fs τ ext) := by
  -- Each parenthesis that is closed leaves fewer frames.
  induction hn : fs.length using Nat.strong_induction_on generalizing fs τ ext with
  | h n ih =>
      subst hn
      cases h : fs.any Frame.isParen with
      | false =>
          obtain ⟨τ', hresult⟩ := exists_result_of_not_enclosed h τ ext
          exact .of_result hresult
      | true =>
          obtain ⟨gs, τ', ext', hstep, hlt⟩ := exists_step_of_enclosed h τ ext .nowhere
          exact .of_step hstep (ih gs.length hlt gs τ' ext' rfl)

theorem completable (p : Progress) : reader.Completable p := by
  cases p with
  | start fs => exact .of_step (l := ⟨.bool, .nowhere⟩) rfl (completable_after fs _ _)
  | after fs τ ext => exact completable_after fs τ ext

/-- What is listed behind a part of a type goes on with the type; or else the type may end there,
and it is what ends it. -/
theorem takes_expected {p : Progress} {ender next : Option Terminal} {l : Lexeme}
    (h : l.token.terminal ∈ p.expected ender next) :
    (∃ q, reader.step p l = some q) ∨
      some l.token.terminal = ender ∧ ∃ τ, p.result? = some τ := by
  obtain ⟨t, s⟩ := l
  cases p with
  | start fs =>
      left
      cases t with
      | lparen => exact ⟨_, rfl⟩
      | bool => exact ⟨_, rfl⟩
      | _ => simp [expected, Token.terminal] at h
  | after fs τ ext =>
      have harrow : Token.terminal t ∈ [.arrow] →
          ∃ q, reader.step (.after fs τ ext) ⟨t, s⟩ = some q := by
        intro hmem
        cases t with
        | arrow => exact ⟨_, rfl⟩
        | _ => cases List.mem_singleton.mp hmem
      rw [expected, enclosed] at h
      cases hfs : fs.any Frame.isParen with
      | false =>
          rw [hfs] at h
          exact (mem_expectedAfter h).imp harrow fun hender =>
            ⟨hender, exists_result_of_not_enclosed hfs τ ext⟩
      | true =>
          left
          rw [hfs] at h
          rcases mem_expectedAfter h with hmore | hender
          · exact harrow hmore
          · cases t with
            | rparen =>
                obtain ⟨gs, τ', ext', hstep, _⟩ := exists_step_of_enclosed hfs τ ext s
                exact ⟨_, hstep⟩
            | _ => cases hender

end Progress

theorem reader_isPrompt : reader.IsPrompt where
  completable := Progress.completable
  takes_expected := by
    intro p next l h
    rcases Progress.takes_expected h with hstep | ⟨hender, _⟩
    · exact hstep
    · cases hender

end Ty

/-! ## Bindings -/

namespace Binding

theorem Progress.completable (p : Progress) : reader.Completable p := by
  have htype : ∀ x (p : Ty.Progress), reader.Completable (.type x p) := by
    intro x p
    obtain ⟨ls, q, τ, hfeed, hτ⟩ := Ty.Progress.completable p
    have hresult : reader.result? (.type x q) = some (.typed x τ) :=
      Option.map_eq_some_iff.mpr ⟨τ, hτ, rfl⟩
    exact .of_feed (feed_type x hfeed) (.of_result hresult)
  cases p with
  | start => exact .of_step (l := ⟨.ident "x", .nowhere⟩) rfl (.of_result rfl)
  | name x => exact .of_result rfl
  | type x p => exact htype x p

theorem reader_isPrompt : reader.IsPrompt where
  completable := Progress.completable
  takes_expected := by
    rintro p next ⟨t, s⟩ h
    cases p with
    | start =>
        cases t with
        | ident x => exact ⟨_, rfl⟩
        | _ => cases List.mem_singleton.mp h
    | name x =>
        cases t with
        | colon => exact ⟨_, rfl⟩
        | _ => cases List.mem_singleton.mp h
    | type x p =>
        rcases Ty.Progress.takes_expected h with ⟨q, hstep⟩ | ⟨hender, _⟩
        · exact ⟨_, Progress.step_type x hstep⟩
        · cases hender

end Binding

/-! ## Terms -/

namespace Expr

/-- Abstractions are closed down to the bottom, if no parenthesis is open. -/
theorem Frame.close_of_not_enclosed {fs : List Frame} (h : fs.any isParen = false) (e : Expr)
    (stop : Nat) : ∃ e', close fs e stop = (e', []) := by
  induction fs generalizing e with
  | nil => exact ⟨e, rfl⟩
  | cons f fs ih =>
      cases f with
      | paren head? first => cases h
      | body start x τ => exact ih h (.lam x τ e ⟨start, stop⟩)

/-- Abstractions are closed down to a parenthesis, if one is open. -/
theorem Frame.close_of_enclosed {fs : List Frame} (h : fs.any isParen) (e : Expr) (stop : Nat) :
    ∃ e' head? first gs, close fs e stop = (e', .paren head? first :: gs) ∧
      gs.length < fs.length := by
  induction fs generalizing e with
  | nil => cases h
  | cons f fs ih =>
      cases f with
      | paren head? first => exact ⟨e, head?, first, fs, rfl, Nat.lt_succ_self _⟩
      | body start x τ =>
          obtain ⟨e', head?, first, gs, hclose, hlt⟩ := ih h (.lam x τ e ⟨start, stop⟩)
          exact ⟨e', head?, first, gs, hclose, Nat.lt_succ_of_lt hlt⟩

namespace Progress

theorem exists_result_of_not_enclosed {fs : List Frame} (h : fs.any Frame.isParen = false)
    (head : Spine) : ∃ e, result? (.after fs head) = some e := by
  obtain ⟨e, hclose⟩ := Frame.close_of_not_enclosed h head.expr head.extent.stop
  exact ⟨e, by rw [result?, hclose]⟩

theorem exists_step_of_enclosed {fs : List Frame} (h : fs.any Frame.isParen) (head : Spine)
    (s : Span) : ∃ gs head', reader.step (.after fs head) ⟨.rparen, s⟩ = some (.after gs head') ∧
      gs.length < fs.length := by
  obtain ⟨e, head?, first, gs, hclose, hlt⟩ :=
    Frame.close_of_enclosed h head.expr head.extent.stop
  refine ⟨gs, .extend head? e ⟨first, s.stop⟩, ?_, hlt⟩
  rw [reader_step, step, hclose]

theorem completable_after (fs : List Frame) (head : Spine) :
    reader.Completable (.after fs head) := by
  induction hn : fs.length using Nat.strong_induction_on generalizing fs head with
  | h n ih =>
      subst hn
      cases h : fs.any Frame.isParen with
      | false =>
          obtain ⟨e, hresult⟩ := exists_result_of_not_enclosed h head
          exact .of_result hresult
      | true =>
          obtain ⟨gs, head', hstep, hlt⟩ := exists_step_of_enclosed h head .nowhere
          exact .of_step hstep (ih gs.length hlt gs head' rfl)

theorem completable_start (fs : List Frame) : reader.Completable (.start fs) :=
  .of_step (l := ⟨.ident "x", .nowhere⟩) rfl (completable_after fs _)

theorem step_dot_of_result {p : Ty.Progress} {τ : Ty} (h : p.result? = some τ) (fs : List Frame)
    (n : Nat) (x : String) (s : Span) :
    reader.step (.type fs n x p) ⟨.dot, s⟩ = some (.start (.body n x τ :: fs)) := by
  rw [reader_step, step, h]
  rfl

/-- The annotation is completed first, and then a dot begins the body. -/
theorem completable_type (fs : List Frame) (n : Nat) (x : String) (p : Ty.Progress) :
    reader.Completable (.type fs n x p) := by
  obtain ⟨ls, q, τ, hfeed, hτ⟩ := Ty.Progress.completable p
  exact .of_feed (feed_type fs n x hfeed)
    (.of_step (step_dot_of_result hτ fs n x .nowhere) (completable_start _))

theorem completable_colon (fs : List Frame) (n : Nat) (x : String) :
    reader.Completable (.colon fs n x) :=
  .of_step (l := ⟨.colon, .nowhere⟩) rfl (completable_type fs n x _)

theorem completable (p : Progress) : reader.Completable p := by
  cases p with
  | start fs => exact completable_start fs
  | after fs head => exact completable_after fs head
  | binder fs n => exact .of_step (l := ⟨.ident "x", .nowhere⟩) rfl (completable_colon fs n "x")
  | colon fs n x => exact completable_colon fs n x
  | type fs n x p => exact completable_type fs n x p

theorem takes_expected_after {fs : List Frame} {head : Spine} {next : Option Terminal} {l : Lexeme}
    (h : l.token.terminal ∈ expected (.after fs head) next) :
    ∃ q, reader.step (.after fs head) l = some q := by
  obtain ⟨t, s⟩ := l
  have hatom : Token.terminal t ∈ [.ident, .lparen] →
      ∃ q, reader.step (.after fs head) ⟨t, s⟩ = some q := by
    intro hmem
    cases t with
    | ident x => exact ⟨_, rfl⟩
    | lparen => exact ⟨_, rfl⟩
    | _ => simp [Token.terminal] at hmem
  rw [expected] at h
  cases hfs : fs.any Frame.isParen with
  | false =>
      rw [hfs] at h
      rcases mem_expectedAfter h with hmore | hender
      · exact hatom hmore
      · cases hender
  | true =>
      rw [hfs] at h
      rcases mem_expectedAfter h with hmore | hender
      · exact hatom hmore
      · cases t with
        | rparen =>
            obtain ⟨gs, head', hstep, _⟩ := exists_step_of_enclosed hfs head s
            exact ⟨_, hstep⟩
        | _ => cases hender

end Progress

theorem reader_isPrompt : reader.IsPrompt where
  completable := Progress.completable
  takes_expected := by
    rintro p next ⟨t, s⟩ h
    cases p with
    | start fs =>
        cases t with
        | ident x => exact ⟨_, rfl⟩
        | lparen => exact ⟨_, rfl⟩
        | lambda => exact ⟨_, rfl⟩
        | _ => simp [reader, Progress.expected, Token.terminal] at h
    | after fs head => exact Progress.takes_expected_after h
    | binder fs n =>
        cases t with
        | ident x => exact ⟨_, rfl⟩
        | _ => cases List.mem_singleton.mp h
    | colon fs n x =>
        cases t with
        | colon => exact ⟨_, rfl⟩
        | _ => cases List.mem_singleton.mp h
    | type fs n x p =>
        rcases Ty.Progress.takes_expected h with ⟨q, hstep⟩ | ⟨hender, τ, hτ⟩
        · exact ⟨_, Progress.step_type fs n x hstep⟩
        · -- The dot is what ends an annotation.
          cases t with
          | dot => exact ⟨_, Progress.step_dot_of_result hτ fs n x s⟩
          | _ => cases hender

end Expr

end Stlc
