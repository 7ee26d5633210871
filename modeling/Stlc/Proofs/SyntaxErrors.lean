import Stlc.Proofs.Slices
import Stlc.Proofs.Viability

/-!
# The first fault of a text

A text that is not well formed is refused at the first place where that can be known. The tokens in
front of the place are a viable prefix. At the place itself no token begins, or there is a token
that makes the prefix one that is not viable, or the text ends without being a sentence. What a
report names as possible there would have kept the prefix viable (`SyntaxError.IsFirstFault`).

Which of the tokens come in front of a place is said by `LexesTo`: a text is divided into longest
matches up to there, whatever comes behind. A text need not be divided to its end to be refused, and
what cannot be divided is no fault if the grammar has refused the text before.

## Key lemmas

* `Scan.lexesTo_of_append`, `Scan.lexesTo_of_stuckAt?` — the tokens that are found, up to a place.
* `Reader.IsPrompt.isFirstFault_of_parse` — a prompt reader reports the first fault.
-/

namespace Stlc

/-! ## Dividing a text up to a place -/

/-- The tokens `ls` are divided off the front of a text that begins at offset `n`. What is left of
it is `rest`, which begins at offset `m`. -/
inductive LexesTo : Nat → List Char → List Lexeme → Nat → List Char → Prop where
  | done {n cs} : LexesTo n cs [] n cs
  | skip {n cs ls m rest} {p : Piece} : p.IsLongest cs → p.token? = none →
      LexesTo (n + byteLength p.text) p.rest ls m rest → LexesTo n cs ls m rest
  | token {n cs t ls m rest} {p : Piece} : p.IsLongest cs → p.token? = some t →
      LexesTo (n + byteLength p.text) p.rest ls m rest →
      LexesTo n cs (⟨t, ⟨n, n + byteLength p.text⟩⟩ :: ls) m rest

namespace Scan

/-- The text is divided into the first of the tokens that are found. -/
theorem lexesTo_of_append {n : Nat} {cs : List Char} {ls ms : List Lexeme}
    (h : (scanFrom n cs).lexemes = ls ++ ms) : ∃ m rest, LexesTo n cs ls m rest := by
  fun_induction scanFrom n cs generalizing ls with
  | case1 n =>
      obtain ⟨rfl, _⟩ := List.append_eq_nil_iff.mp h.symm
      exact ⟨_, _, .done⟩
  | case2 n cs hne hfront =>
      obtain ⟨rfl, _⟩ := List.append_eq_nil_iff.mp h.symm
      exact ⟨_, _, .done⟩
  | case3 n cs hne p hp stop later ht =>
      rename_i ih
      obtain ⟨m, rest, hlexes⟩ := ih h
      exact ⟨m, rest, .skip (Piece.front_eq_some_iff.mp hp) ht hlexes⟩
  | case4 n cs hne p hp stop later t ht =>
      rename_i ih
      cases ls with
      | nil => exact ⟨_, _, .done⟩
      | cons l ls =>
          obtain ⟨rfl, htail⟩ := List.cons.inj h
          obtain ⟨m, rest, hlexes⟩ := ih htail
          exact ⟨m, rest, .token (Piece.front_eq_some_iff.mp hp) ht hlexes⟩

/-- Where the scanner is stuck, there is something left with which no piece begins. -/
theorem lexesTo_of_stuckAt? {n m : Nat} {cs : List Char} (h : (scanFrom n cs).stuckAt? = some m) :
    ∃ rest, LexesTo n cs (scanFrom n cs).lexemes m rest ∧ rest ≠ [] ∧ Piece.front rest = none := by
  fun_induction scanFrom n cs with
  | case1 n => cases h
  | case2 n cs hne hfront =>
      cases h
      exact ⟨cs, .done, hne, hfront⟩
  | case3 n cs hne p hp stop later ht =>
      rename_i ih
      obtain ⟨rest, hlexes, hrest⟩ := ih h
      exact ⟨rest, .skip (Piece.front_eq_some_iff.mp hp) ht hlexes, hrest⟩
  | case4 n cs hne p hp stop later t ht =>
      rename_i ih
      obtain ⟨rest, hlexes, hrest⟩ := ih h
      exact ⟨rest, .token (Piece.front_eq_some_iff.mp hp) ht hlexes, hrest⟩

end Scan

/-! ## Faults -/

/-- The text is no sentence, and this is the first place that shows it. -/
inductive SyntaxError.IsFirstFault {α : Type} (Sentence : List Lexeme → α → Prop)
    (source : String) : SyntaxError → Prop where
  /-- No rule matches here, except by the empty text. -/
  | invalidToken {ls m rest} : LexesTo 0 source.toList ls m rest → rest ≠ [] →
      (∀ t? text more, text ++ more = rest → Piece.Matches t? text → text = []) →
      Viable Sentence ls → IsFirstFault Sentence source (.invalidToken m)
  /-- The tokens could be continued, but there are no more. -/
  | unexpectedEnd {ls expected} : Lexes 0 source.toList ls →
      Viable Sentence ls → (∀ a, ¬ Sentence ls a) →
      (∀ l : Lexeme, l.token.terminal ∈ expected → Viable Sentence (ls ++ [l])) →
      IsFirstFault Sentence source (.unexpectedEnd (spanOf ls).stop expected)
  /-- The tokens could be continued, but not with this one. -/
  | unexpectedToken {ls l m rest expected} : LexesTo 0 source.toList (ls ++ [l]) m rest →
      l.span.Spells source l.token.text →
      Viable Sentence ls → ¬ Viable Sentence (ls ++ [l]) →
      (∀ k : Lexeme, k.token.terminal ∈ expected → Viable Sentence (ls ++ [k])) →
      IsFirstFault Sentence source (.unexpectedToken l expected)

theorem stop_spanOf (ls : List Lexeme) :
    (spanOf ls).stop = (ls.getLast?.map (·.span.stop)).getD 0 := by
  cases ls with
  | nil => rfl
  | cons l ls =>
      rw [List.getLast?_eq_some_getLast (List.cons_ne_nil l ls)]
      rfl

namespace Reader

variable {σ α : Type} {R : Reader σ α} {Sentence : List Lexeme → α → Prop}

theorem IsPrompt.viable_of_expected (hR : R.IsPrompt) (h : R.Recognizes Sentence)
    {ls : List Lexeme} {s : σ} (hs : R.feed R.start ls = some s) (next : Option Terminal)
    (l : Lexeme) (hl : l.token.terminal ∈ R.expected s next) : Viable Sentence (ls ++ [l]) :=
  (hR.viable_append_iff h hs l).mpr (hR.takes_expected s next l hl)

/-- A token that is refused is the first fault, whatever the text behind it is. -/
theorem IsPrompt.isFirstFault_of_run (hR : R.IsPrompt) (h : R.Recognizes Sentence)
    {source : String} {err : SyntaxError}
    (hrun : R.run R.start 0 (Scan.ofString source).lexemes = .error err) :
    err.IsFirstFault Sentence source := by
  obtain ⟨ls, l, ms, s, hls, hs, hstep, rfl⟩ := R.exists_of_run_eq_error hrun
  have happend : (Scan.ofString source).lexemes = (ls ++ [l]) ++ ms := by
    rw [hls, List.append_assoc]
    rfl
  obtain ⟨m, rest, hlexes⟩ := Scan.lexesTo_of_append happend
  have hrefused : ¬ Viable Sentence (ls ++ [l]) := by
    rw [hR.viable_append_iff h hs l, hstep]
    exact nofun
  exact .unexpectedToken hlexes (Scan.spells_of_mem (by simp [hls]))
    ((hR.viable_iff h).mpr ⟨s, hs⟩) hrefused (hR.viable_of_expected h hs _)

/-- Where all tokens have been taken and the scanner is stuck, that is the first fault. -/
theorem IsPrompt.isFirstFault_of_stuckAt? (hR : R.IsPrompt) (h : R.Recognizes Sentence)
    {source : String} {s : σ} {m : Nat}
    (hs : R.feed R.start (Scan.ofString source).lexemes = some s)
    (hstuck : (Scan.ofString source).stuckAt? = some m) :
    (SyntaxError.invalidToken m).IsFirstFault Sentence source := by
  obtain ⟨rest, hlexes, hne, hfront⟩ := Scan.lexesTo_of_stuckAt? hstuck
  exact .invalidToken hlexes hne (Piece.front_eq_none_iff.mp hfront)
    ((hR.viable_iff h).mpr ⟨s, hs⟩)

/-- Where all tokens have been taken and lead to no result, the first fault is at the end. -/
theorem IsPrompt.isFirstFault_of_result? (hR : R.IsPrompt) (h : R.Recognizes Sentence)
    {source : String} {s : σ} {stop : Nat}
    (hrun : R.run R.start 0 (Scan.ofString source).lexemes = .ok (s, stop))
    (hstuck : (Scan.ofString source).stuckAt? = none) (hresult : R.result? s = none) :
    (SyntaxError.unexpectedEnd stop (R.expected s none)).IsFirstFault Sentence source := by
  have hs := R.run_eq_ok_iff.mp ⟨stop, hrun⟩
  have hlexes : Lexes 0 source.toList (Scan.ofString source).lexemes :=
    Scan.lexes_of_scanFrom (congrArg (Scan.mk _) hstuck)
  rw [R.stop_of_run hrun, ← stop_spanOf]
  refine .unexpectedEnd hlexes ((hR.viable_iff h).mpr ⟨s, hs⟩) ?_ (hR.viable_of_expected h hs _)
  intro a ha
  rw [h.sentence_iff hs, hresult] at ha
  cases ha

/-- What a prompt reader reports of a text is its first fault. -/
theorem IsPrompt.isFirstFault_of_parse (hR : R.IsPrompt) (h : R.Recognizes Sentence)
    {source : String} {err : SyntaxError} (herr : R.parse source = .error err) :
    err.IsFirstFault Sentence source := by
  rcases R.parse_eq_error_iff.mp herr with
    hrun | ⟨s, stop, hrun, ⟨m, hstuck, rfl⟩ | ⟨hstuck, hresult, rfl⟩⟩
  · exact hR.isFirstFault_of_run h hrun
  · exact hR.isFirstFault_of_stuckAt? h (R.run_eq_ok_iff.mp ⟨stop, hrun⟩) hstuck
  · exact hR.isFirstFault_of_result? h hrun hstuck hresult

end Reader

/-- What `Expr.parse`, `Ty.parse` and `Binding.parse` report is the first fault of the source
(`SyntaxError.IsFirstFault`) in the grammar of `Derives`: the tokens in front of it are `Viable`,
they are no sentence, or not viable with the token at fault, and each terminal that is listed as
expected would keep them viable. The three readers are prompt (`IsPrompt`), so none goes on past a
fault. -/
theorem syntax_errors_located (source : String) (err : SyntaxError) :
    (Expr.parse source = .error err → err.IsFirstFault (Expr.Derives .term) source) ∧
    (Ty.parse source = .error err → err.IsFirstFault (Ty.Derives .type) source) ∧
    (Binding.parse source = .error err → err.IsFirstFault Binding.Derives source) :=
  ⟨Expr.reader_isPrompt.isFirstFault_of_parse fun _ _ => Expr.derives_iff,
    Ty.reader_isPrompt.isFirstFault_of_parse fun _ _ => Ty.derives_iff,
    Binding.reader_isPrompt.isFirstFault_of_parse fun _ _ => Binding.derives_iff⟩

/-- A dot within parentheses of an annotation, where a character that begins no token comes later; a
text that stops behind a comment; and a dash that begins no arrow. -/
theorem syntax_errors_located_each_kind :
    let dot : SyntaxError := .unexpectedToken ⟨.dot, ⟨8, 9⟩⟩ [.rparen]
    let stop : SyntaxError := .unexpectedEnd 6 [.rparen]
    Expr.parse "\\x:(Bool. x #" = .error dot ∧
      dot.IsFirstFault (Expr.Derives .term) "\\x:(Bool. x #" ∧
      Ty.parse " (Bool// )" = .error stop ∧ stop.IsFirstFault (Ty.Derives .type) " (Bool// )" ∧
      Binding.parse "x: -" = .error (.invalidToken 3) ∧
      (SyntaxError.invalidToken 3).IsFirstFault Binding.Derives "x: -" := by
  intro dot stop
  have hdot : Expr.parse "\\x:(Bool. x #" = .error dot := by cbv
  have hstop : Ty.parse " (Bool// )" = .error stop := by cbv
  have hdash : Binding.parse "x: -" = .error (.invalidToken 3) := by cbv
  exact ⟨hdot, (syntax_errors_located _ _).1 hdot, hstop, (syntax_errors_located _ _).2.1 hstop,
    hdash, (syntax_errors_located _ _).2.2 hdash⟩

end Stlc
