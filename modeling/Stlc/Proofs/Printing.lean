import Stlc.Proofs.Scanning
import Stlc.Proofs.TermGrammar
import Stlc.Term.Display

/-!
# Printed types and expressions

Types are printed by `Ty.toText`, and expressions by `Expr.toText`, which puts in the parentheses
that the position asks for. Each has its tokens beside it (`words`). Printing is undone in two
steps: the tokens are what is read off the text (`Ty.reads_toText`, `Expr.reads_toText`), and they
derive the tree that was printed (`Ty.derives_words`, `Expr.derives_words`), up to spans.

`Ty.parse_toText` and `Expr.parse_toText` put the two together. The main statement about types is
`types_round_trip`.
-/

namespace Stlc

def enclose (ts : List Token) : List Token := .lparen :: (ts ++ [.rparen])

theorem map_token_eq_cons {ls : List Lexeme} {t : Token} {ts : List Token}
    (h : ls.map Lexeme.token = t :: ts) :
    ∃ s ms, ls = ⟨t, s⟩ :: ms ∧ ms.map Lexeme.token = ts := by
  obtain ⟨l, ms, rfl, rfl, hms⟩ := List.map_eq_cons_iff.mp h
  exact ⟨l.span, ms, rfl, hms⟩

theorem map_token_eq_enclose {ls : List Lexeme} {ts : List Token}
    (h : ls.map Lexeme.token = enclose ts) :
    ∃ s ms s', ls = ⟨.lparen, s⟩ :: (ms ++ [⟨.rparen, s'⟩]) ∧ ms.map Lexeme.token = ts := by
  obtain ⟨s, ks, rfl, hks⟩ := map_token_eq_cons h
  obtain ⟨ms, ls, rfl, hms, hls⟩ := List.map_eq_append_iff.mp hks
  obtain ⟨s', ls, rfl, hnil⟩ := map_token_eq_cons hls
  obtain rfl := List.map_eq_nil_iff.mp hnil
  exact ⟨s, ms, s', rfl, hms⟩

/-! ## Types -/

namespace Ty

def words : Ty → List Token
  | bool _ => [.bool]
  | arrow a b _ => (if a.isArrow then enclose a.words else a.words) ++ .arrow :: b.words

theorem words_ne_nil (τ : Ty) : τ.words ≠ [] := by
  cases τ with
  | bool s => simp [words]
  | arrow a b s => simp [words]

@[simp] theorem isArrow_eraseSpans (τ : Ty) : τ.eraseSpans.isArrow = τ.isArrow := by
  cases τ <;> rfl

@[simp] theorem toText_eraseSpans (τ : Ty) : τ.eraseSpans.toText = τ.toText := by
  induction τ with
  | bool s => rfl
  | arrow a b s iha ihb => simp only [eraseSpans, toText, isArrow_eraseSpans, iha, ihb]

/-- The tokens of a printed type derive it. Those of a type that is no arrow are an atom. -/
theorem derives_words (τ : Ty) {ls : List Lexeme} (h : ls.map Lexeme.token = τ.words) :
    ∃ σ, Derives .type ls σ ∧ (τ.isArrow = false → Derives .atom ls σ) ∧
      σ.eraseSpans = τ.eraseSpans := by
  induction τ generalizing ls with
  | bool s =>
      obtain ⟨s', ls, rfl, hnil⟩ := map_token_eq_cons h
      obtain rfl := List.map_eq_nil_iff.mp hnil
      exact ⟨.bool s', .atom .bool, fun _ => .bool, rfl⟩
  | arrow a b s iha ihb =>
      obtain ⟨ls₁, ls₂, rfl, h₁, h₂⟩ := List.map_eq_append_iff.mp h
      obtain ⟨s', ms, rfl, hms⟩ := map_token_eq_cons h₂
      obtain ⟨τ, hτ, _, hb⟩ := ihb hms
      have hinput : ∃ σ, Derives .atom ls₁ σ ∧ σ.eraseSpans = a.eraseSpans := by
        split at h₁
        · obtain ⟨s₁, ks, s₂, rfl, hks⟩ := map_token_eq_enclose h₁
          obtain ⟨σ, hσ, _, ha⟩ := iha hks
          exact ⟨σ, .paren hσ, ha⟩
        · next ha =>
            obtain ⟨σ, _, hσ, hσa⟩ := iha h₁
            exact ⟨σ, hσ (Bool.eq_false_iff.mpr ha), hσa⟩
      obtain ⟨σ, hσ, ha⟩ := hinput
      refine ⟨_, .arrow hσ hτ, ?_, ?_⟩
      · intro harrow
        cases harrow
      · simp only [eraseSpans, ha, hb]

end Ty

/-- Tokens in parentheses are read off a text in parentheses. -/
theorem Scan.Reads.enclose {cs rest : List Char} {ts : List Token}
    (h : Reads (cs ++ ')' :: rest) ts (')' :: rest)) :
    Reads ('(' :: (cs ++ ')' :: rest)) (Stlc.enclose ts) rest :=
  .lparen (h.append (.rparen .done))

open Scan (Reads)

theorem Ty.reads_toText (τ : Ty) {rest : List Char} (h : EndsWord rest) :
    Reads (τ.toText.toList ++ rest) τ.words rest := by
  induction τ generalizing rest with
  | bool s => exact .bool h
  | arrow a b s iha ihb =>
      have hb := ihb h
      have harrow : Reads (' ' :: '-' :: '>' :: ' ' :: (b.toText.toList ++ rest))
          (.arrow :: b.words) rest :=
        .blank (.arrow (.blank hb b.words_ne_nil)) (by simp)
      simp only [toText, words]
      split
      · have hread := (iha (endsWord_cons rfl)).enclose.append harrow
        simpa using hread
      · have hread := (iha (endsWord_cons rfl)).append harrow
        simpa using hread

namespace Ty

/-- What is printed is parsed back, up to spans. -/
theorem parse_toText (τ : Ty) : ∃ σ, parse τ.toText = .ok σ ∧ σ.sameAs τ := by
  have hread := τ.reads_toText endsWord_nil
  rw [List.append_nil] at hread
  obtain ⟨ls, hscan, hwords⟩ := hread.scanFrom 0
  obtain ⟨σ, hσ, _, heq⟩ := τ.derives_words hwords
  exact ⟨σ, parse_eq_ok_iff.mpr ⟨ls, hscan, hσ⟩, (sameAs_iff σ τ).mpr heq⟩

theorem toText_eq_of_sameAs {σ τ : Ty} (h : σ.sameAs τ) : σ.toText = τ.toText := by
  rw [← toText_eraseSpans σ, (sameAs_iff σ τ).mp h, toText_eraseSpans]

/-- A text is that of one type only: the one that it is parsed as. -/
theorem sameAs_of_toText_eq {σ τ : Ty} (h : σ.toText = τ.toText) : σ.sameAs τ := by
  obtain ⟨σ', hσ', hσ⟩ := σ.parse_toText
  obtain ⟨τ', hτ', hτ⟩ := τ.parse_toText
  rw [h, hτ'] at hσ'
  cases hσ'
  rw [sameAs_iff] at *
  exact hσ.symm.trans hτ

end Ty

/-- `Ty.parse` reads `Ty.toText` back up to spans, so `toText` is injective up to spans; and
parsing what `toText` made of a parsed type gives a type that `toText` writes in the same way. -/
theorem types_round_trip :
    (∀ τ : Ty, ∃ τ', Ty.parse τ.toText = .ok τ' ∧ τ'.sameAs τ) ∧
    (∀ σ τ : Ty, σ.toText = τ.toText ↔ σ.sameAs τ) ∧
    (∀ source τ, Ty.parse source = .ok τ →
      ∃ τ', Ty.parse τ.toText = .ok τ' ∧ τ'.sameAs τ ∧ τ'.toText = τ.toText) := by
  refine ⟨Ty.parse_toText, ?_, ?_⟩
  · intro σ τ
    exact ⟨Ty.sameAs_of_toText_eq, Ty.toText_eq_of_sameAs⟩
  · intro source τ _
    obtain ⟨τ', hτ', hsame⟩ := τ.parse_toText
    exact ⟨τ', hτ', hsame, Ty.toText_eq_of_sameAs hsame⟩

/-- Arrows on both sides of an arrow, and parentheses that are not printed. -/
theorem types_round_trip_parentheses :
    let source := "((Bool)->Bool) //\n -> (Bool -> (Bool->Bool))"
    let text := "(Bool -> Bool) -> Bool -> Bool -> Bool"
    ∃ τ, Ty.parse source = .ok τ ∧ τ.toText = text ∧
      ∃ τ', Ty.parse text = .ok τ' ∧ τ'.sameAs τ ∧ τ'.toText = text := by
  intro source text
  have h : Ty.parse source = .ok (.arrow (.arrow (.bool ⟨2, 6⟩) (.bool ⟨9, 13⟩) ⟨1, 13⟩)
      (.arrow (.bool ⟨23, 27⟩) (.arrow (.bool ⟨32, 36⟩) (.bool ⟨38, 42⟩) ⟨32, 42⟩) ⟨23, 43⟩)
      ⟨0, 44⟩) := by cbv
  obtain ⟨τ', hτ', hsame, htext⟩ := types_round_trip.2.2 source _ h
  exact ⟨_, h, rfl, τ', hτ', hsame, htext⟩

/-! ## Expressions -/

open Term (Position)

namespace Expr

def toText (pos : Position) : Expr → String
  | var x _ => x
  | lam x τ e _ =>
    let text := "\\" ++ x ++ ":" ++ τ.toText ++ ". " ++ e.toText .top
    if pos = .top then text else "(" ++ text ++ ")"
  | app e f _ =>
    let text := e.toText .head ++ " " ++ f.toText .argument
    if pos = .argument then "(" ++ text ++ ")" else text

def words (pos : Position) : Expr → List Token
  | var x _ => [.ident x]
  | lam x τ e _ =>
    let ts := .lambda :: .ident x :: .colon :: (τ.words ++ .dot :: e.words .top)
    if pos = .top then ts else enclose ts
  | app e f _ =>
    let ts := e.words .head ++ f.words .argument
    if pos = .argument then enclose ts else ts

/-- The names that occur in an expression, those of its binders included. -/
def names : Expr → List String
  | var x _ => [x]
  | lam x _ e _ => x :: e.names
  | app e f _ => e.names ++ f.names

theorem words_ne_nil (pos : Position) (e : Expr) : e.words pos ≠ [] := by
  induction e generalizing pos with
  | var x s => simp [words]
  | lam x τ e s _ =>
      simp only [words]
      split <;> simp [enclose]
  | app e f s ihe _ =>
      simp only [words]
      split <;> simp [enclose, ihe]

/-- What is printed at a position is a phrase that may stand there. -/
def phraseAt : Position → Phrase
  | .top => .term
  | .head => .app
  | .argument => .atom

theorem Derives.at {ls : List Lexeme} {e : Expr} (h : Derives .atom ls e) (pos : Position) :
    Derives (phraseAt pos) ls e := by
  cases pos with
  | top => exact .spine (.atom h)
  | head => exact .atom h
  | argument => exact h

/-- Tokens in parentheses derive, at every position, what the tokens between them derive. -/
theorem derives_enclose {ls : List Lexeme} {ts : List Token} {e : Expr} (pos : Position)
    (h : ls.map Lexeme.token = enclose ts)
    (hts : ∀ ms : List Lexeme, ms.map Lexeme.token = ts →
      ∃ f, Derives .term ms f ∧ f.eraseSpans = e.eraseSpans) :
    ∃ f, Derives (phraseAt pos) ls f ∧ f.eraseSpans = e.eraseSpans := by
  obtain ⟨s, ms, s', rfl, hms⟩ := map_token_eq_enclose h
  obtain ⟨f, hf, heq⟩ := hts ms hms
  exact ⟨f, (Derives.paren hf).at pos, heq⟩

/-- The tokens of a printed expression derive it. -/
theorem derives_words (e : Expr) (pos : Position) {ls : List Lexeme}
    (h : ls.map Lexeme.token = e.words pos) :
    ∃ f, Derives (phraseAt pos) ls f ∧ f.eraseSpans = e.eraseSpans := by
  induction e generalizing pos ls with
  | var x s =>
      obtain ⟨s', ls, rfl, hnil⟩ := map_token_eq_cons h
      obtain rfl := List.map_eq_nil_iff.mp hnil
      exact ⟨.var x s', Derives.var.at pos, rfl⟩
  | lam x τ e s ih =>
      have hlam : ∀ ms : List Lexeme, ms.map Lexeme.token =
            .lambda :: .ident x :: .colon :: (τ.words ++ .dot :: e.words .top) →
          ∃ f, Derives .term ms f ∧ f.eraseSpans = (lam x τ e s).eraseSpans := by
        intro ms hms
        obtain ⟨s₁, ks₁, rfl, h₁⟩ := map_token_eq_cons hms
        obtain ⟨s₂, ks₂, rfl, h₂⟩ := map_token_eq_cons h₁
        obtain ⟨s₃, ks₃, rfl, h₃⟩ := map_token_eq_cons h₂
        obtain ⟨ks, ks₄, rfl, hτ, h₄⟩ := List.map_eq_append_iff.mp h₃
        obtain ⟨s₄, ms, rfl, he⟩ := map_token_eq_cons h₄
        obtain ⟨σ, hσ, _, hτ⟩ := τ.derives_words hτ
        obtain ⟨f, hf, he⟩ := ih .top he
        refine ⟨_, .lam hσ hf, ?_⟩
        simp only [eraseSpans, hτ, he]
      simp only [words] at h
      split at h
      · next hpos =>
          subst hpos
          exact hlam ls h
      · exact derives_enclose pos h hlam
  | app e f s ihe ihf =>
      have happ : ∀ ms : List Lexeme, ms.map Lexeme.token = e.words .head ++ f.words .argument →
          ∃ g, Derives .app ms g ∧ g.eraseSpans = (app e f s).eraseSpans := by
        intro ms hms
        obtain ⟨ms₁, ms₂, rfl, h₁, h₂⟩ := List.map_eq_append_iff.mp hms
        obtain ⟨e', he', hee⟩ := ihe .head h₁
        obtain ⟨f', hf', hff⟩ := ihf .argument h₂
        refine ⟨_, .app he' hf', ?_⟩
        simp only [eraseSpans, hee, hff]
      have hterm : ∀ ms : List Lexeme, ms.map Lexeme.token = e.words .head ++ f.words .argument →
          ∃ g, Derives .term ms g ∧ g.eraseSpans = (app e f s).eraseSpans := by
        intro ms hms
        obtain ⟨g, hg, heq⟩ := happ ms hms
        exact ⟨g, .spine hg, heq⟩
      cases pos with
      | top => exact hterm ls h
      | head => exact happ ls h
      | argument => exact derives_enclose .argument h hterm

/-- Putting parentheses around what is printed puts them around the tokens that are read. -/
theorem reads_enclose {text : String} {ts : List Token} {rest : List Char} (enclosed : Prop)
    [Decidable enclosed] (h : EndsWord rest)
    (hread : ∀ {cs}, EndsWord cs → Reads (text.toList ++ cs) ts cs) :
    Reads ((if enclosed then "(" ++ text ++ ")" else text).toList ++ rest)
      (if enclosed then enclose ts else ts) rest := by
  split
  · have hend : EndsWord (')' :: rest) := endsWord_cons rfl
    have hparen := (hread hend).enclose
    simpa using hparen
  · exact hread h

theorem reads_toText (e : Expr) (pos : Position) {rest : List Char}
    (hnames : ∀ x ∈ e.names, IsName x) (h : EndsWord rest) :
    Reads ((e.toText pos).toList ++ rest) (e.words pos) rest := by
  induction e generalizing pos rest with
  | var x s => exact .ident (hnames x (by simp [names])) h
  | lam x τ e s ih =>
      have hx : IsName x := hnames x (by simp [names])
      have he : ∀ y ∈ e.names, IsName y := fun y hy => hnames y (by simp [names, hy])
      have hlam : ∀ {cs}, EndsWord cs →
          Reads (("\\" ++ x ++ ":" ++ τ.toText ++ ". " ++ e.toText .top).toList ++ cs)
            (.lambda :: .ident x :: .colon :: (τ.words ++ .dot :: e.words .top)) cs := by
        intro cs hcs
        -- From the end, since what comes after a word decides whether the word is over.
        have hbody : Reads ('.' :: ' ' :: ((e.toText .top).toList ++ cs))
            (.dot :: e.words .top) cs :=
          .dot (.blank (ih .top he hcs) (e.words_ne_nil .top))
        have htype := (τ.reads_toText (endsWord_cons rfl)).append hbody
        have hname := (Reads.ident hx (endsWord_cons rfl)).append (.colon htype)
        simpa using hname.lambda
      have hread := reads_enclose (¬ pos = .top) h hlam
      simpa only [toText, words, ite_not] using hread
  | app e f s ihe ihf =>
      have he : ∀ y ∈ e.names, IsName y := fun y hy => hnames y (by simp [names, hy])
      have hf : ∀ y ∈ f.names, IsName y := fun y hy => hnames y (by simp [names, hy])
      have happ : ∀ {cs}, EndsWord cs →
          Reads ((e.toText .head ++ " " ++ f.toText .argument).toList ++ cs)
            (e.words .head ++ f.words .argument) cs := by
        intro cs hcs
        have hblank : Reads (' ' :: ((f.toText .argument).toList ++ cs)) (f.words .argument) cs :=
          .blank (ihf .argument hf hcs) (f.words_ne_nil .argument)
        have hread := (ihe .head he (endsWord_cons rfl)).append hblank
        simpa using hread
      have hread := reads_enclose (pos = .argument) h happ
      simpa only [toText, words] using hread

/-- What is printed is parsed back, up to spans. -/
theorem parse_toText (e : Expr) (hnames : ∀ x ∈ e.names, IsName x) :
    ∃ f, parse (e.toText .top) = .ok f ∧ f.eraseSpans = e.eraseSpans := by
  have hread := e.reads_toText .top hnames endsWord_nil
  rw [List.append_nil] at hread
  obtain ⟨ls, hscan, hwords⟩ := hread.scanFrom 0
  obtain ⟨f, hf, heq⟩ := e.derives_words .top hwords
  exact ⟨f, parse_eq_ok_iff.mpr ⟨ls, hscan, hf⟩, heq⟩

/-- The names of a phrase are among its tokens. -/
theorem Derives.ident_mem {n : Phrase} {ls : List Lexeme} {e : Expr} (h : Derives n ls e)
    {x : String} (hx : x ∈ e.names) : .ident x ∈ ls.map Lexeme.token := by
  induction h with
  | var => simp_all [names]
  | paren _ ih => simp [ih hx]
  | atom _ ih => exact ih hx
  | app _ _ ihe ihf =>
      rw [List.map_append, List.mem_append]
      rcases List.mem_append.mp hx with hx | hx
      · exact .inl (ihe hx)
      · exact .inr (ihf hx)
  | spine _ ih => exact ih hx
  | lam _ _ ih =>
      rcases List.mem_cons.mp hx with rfl | hx
      · simp
      · simp [ih hx]

/-- What is parsed has names that the scanner read. -/
theorem isName_of_parse {source : String} {e : Expr} (h : parse source = .ok e) :
    ∀ x ∈ e.names, IsName x := by
  obtain ⟨ls, hscan, hls⟩ := parse_eq_ok_iff.mp h
  have hreads := Scan.reads_of_scanFrom hscan
  intro x hx
  exact hreads.isName (hls.ident_mem hx)

end Expr

end Stlc
