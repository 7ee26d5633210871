import Stlc.Proofs.BindingGrammar
import Stlc.Proofs.Parts

/-!
# Spacing

Blanks and comments may be put in wherever a token begins or ends: the source is read as the same
tree, and what stands behind the place moves by what was put in.

Most of this is about dividing a text. Pieces that are skipped are as long as they can be, so what
is put in may become a part of the piece in front of it, or take in the blanks behind it. None of
that can be seen in the tokens, because to skip a piece is to skip its characters one by one
(`IsSpacing.lexes_append_iff`). Only a comment without a line break takes in more than blanks, and
such a comment is the last piece of its text (`Piece.IsLongest.rest_eq_nil_of_comment`). A token
ends where it did, as no name goes on with a blank or a slash (`Piece.IsLongest.change_rest`).

## Key lemmas

* `IsSpacing.lexes_append_iff` — spacing has no tokens in it, and does not change those behind it.
* `Lexes.insert` — the tokens of a text with spacing put in.

The main statement is `spacing_immaterial`.
-/

namespace Stlc

/-! ## Spacing -/

/-- Blanks, and comments that end with a line break, in any order. What is in the line of a comment
is of no account. -/
inductive IsSpacing : List Char → Prop where
  | nil : IsSpacing []
  | blank {c cs} : isBlank c → IsSpacing cs → IsSpacing (c :: cs)
  | comment {line b cs} : (∀ c ∈ line, !isLineBreak c) → isLineBreak b → IsSpacing cs →
      IsSpacing ('/' :: '/' :: (line ++ b :: cs))

theorem isBlank_of_isLineBreak {c : Char} (h : isLineBreak c) : isBlank c := by
  simp only [isLineBreak, Bool.or_eq_true, beq_iff_eq] at h
  rcases h with rfl | rfl <;> rfl

theorem isNameRest_of_isBlank {c : Char} (h : isBlank c) : isNameRest c = false := by
  have hstart : isNameStart c = false := by
    by_contra hstart
    rw [Bool.not_eq_false] at hstart
    rw [not_isBlank_of_isNameStart hstart] at h
    cases h
  rw [isNameRest, hstart, Bool.false_or, beq_eq_false_iff_ne]
  rintro rfl
  exact absurd h (by decide)

theorem takeWhile_line {line rest : List Char} {b : Char} (hline : ∀ c ∈ line, !isLineBreak c)
    (hb : isLineBreak b) : (line ++ b :: rest).takeWhile (!isLineBreak ·) = line := by
  rw [List.takeWhile_append_of_pos hline, List.takeWhile_cons_of_neg (by simp [hb]),
    List.append_nil]

theorem dropWhile_line {line rest : List Char} {b : Char} (hline : ∀ c ∈ line, !isLineBreak c)
    (hb : isLineBreak b) : (line ++ b :: rest).dropWhile (!isLineBreak ·) = b :: rest := by
  rw [List.dropWhile_append_of_pos hline, List.dropWhile_cons_of_neg (by simp [hb])]

namespace IsSpacing

theorem of_isBlank {cs : List Char} (h : ∀ c ∈ cs, isBlank c) : IsSpacing cs := by
  induction cs with
  | nil => exact .nil
  | cons c cs ih =>
      rw [List.forall_mem_cons] at h
      exact .blank h.1 (ih h.2)

/-- What a comment without a line break does not take in of the spacing behind it is spacing. -/
theorem dropWhile {cs : List Char} (h : IsSpacing cs) :
    IsSpacing (cs.dropWhile (!isLineBreak ·)) := by
  induction h with
  | nil => exact .nil
  | @blank c cs hc hcs ih =>
      rw [List.dropWhile_cons]
      split
      · exact ih
      · exact .blank hc hcs
  | @comment line b cs hline hb hcs _ =>
      show IsSpacing ((line ++ b :: cs).dropWhile (!isLineBreak ·))
      rw [dropWhile_line hline hb]
      exact .blank (isBlank_of_isLineBreak hb) hcs

theorem endsWord_append {cs rest : List Char} (h : IsSpacing cs) (hrest : EndsWord rest) :
    EndsWord (cs ++ rest) := by
  cases h with
  | nil => exact hrest
  | blank hc _ => exact endsWord_cons (isNameRest_of_isBlank hc)
  | comment => exact endsWord_cons rfl

theorem endsWord_insert {cs before after : List Char} (h : IsSpacing cs)
    (hends : EndsWord (before ++ after)) : EndsWord (before ++ (cs ++ after)) := by
  cases before with
  | nil => exact h.endsWord_append hends
  | cons c before => exact endsWord_cons (hends c (before ++ after) rfl)

end IsSpacing

/-! ## Skipping -/

namespace Lexes

theorem nil_iff {n : Nat} {ls : List Lexeme} : Lexes n [] ls ↔ ls = [] := by
  constructor
  · intro h
    have hscan := h.scanFrom
    rw [Scan.scanFrom, if_pos rfl] at hscan
    exact (congrArg Scan.lexemes hscan).symm
  · rintro rfl
    exact .done

theorem skip_iff {n : Nat} {cs : List Char} {ls : List Lexeme} {p : Piece} (hp : p.IsLongest cs)
    (ht : p.token? = none) :
    Lexes n cs ls ↔ Lexes (n + byteLength p.text) p.rest ls := by
  constructor
  · intro h
    cases h with
    | done => exact absurd (List.append_eq_nil_iff.mp hp.append).1 hp.ne_nil
    | skip hq _ hlater =>
        rw [hp.unique hq]
        exact hlater
    | token hq hu _ =>
        rw [hp.unique hq, hu] at ht
        cases ht
  · exact .skip hp ht

/-- One blank may be skipped alone: if there are more behind it, they are skipped next. -/
theorem blank_iff {n : Nat} {c : Char} {cs : List Char} {ls : List Lexeme} (hc : isBlank c) :
    Lexes n (c :: cs) ls ↔ Lexes (n + c.utf8Size) cs ls := by
  rw [skip_iff (Piece.front_eq_some_iff.mp (Piece.front_of_isBlank hc)) rfl]
  cases cs with
  | nil => rfl
  | cons d ds =>
      by_cases hd : isBlank d
      · rw [skip_iff (Piece.front_eq_some_iff.mp (Piece.front_of_isBlank hd)) rfl,
          List.takeWhile_cons_of_pos hd, List.dropWhile_cons_of_pos hd, Nat.add_assoc]
        rfl
      · rw [List.takeWhile_cons_of_neg hd, List.dropWhile_cons_of_neg hd]
        rfl

theorem blanks_append_iff {n : Nat} {cs rest : List Char} {ls : List Lexeme}
    (hcs : ∀ c ∈ cs, isBlank c) :
    Lexes n (cs ++ rest) ls ↔ Lexes (n + byteLength cs) rest ls := by
  induction cs generalizing n with
  | nil => rfl
  | cons c cs ih =>
      rw [List.forall_mem_cons] at hcs
      rw [List.cons_append, blank_iff hcs.1, ih hcs.2, Nat.add_assoc]
      rfl

/-- The breaks at the end of the line of a comment may be skipped as blanks. -/
theorem comment_iff {n : Nat} {cs : List Char} {ls : List Lexeme} :
    Lexes n ('/' :: '/' :: cs) ls ↔
      Lexes (n + byteLength ('/' :: '/' :: cs.takeWhile (!isLineBreak ·)))
        (cs.dropWhile (!isLineBreak ·)) ls := by
  have hbreaks : ∀ c ∈ (cs.dropWhile (!isLineBreak ·)).takeWhile isLineBreak, isBlank c := by
    intro c hc
    exact isBlank_of_isLineBreak (List.all_eq_true.mp List.all_takeWhile c hc)
  have hfront : Piece.front ('/' :: '/' :: cs) = some ⟨none,
      '/' :: '/' :: cs.takeWhile (!isLineBreak ·) ++
        (cs.dropWhile (!isLineBreak ·)).takeWhile isLineBreak,
      (cs.dropWhile (!isLineBreak ·)).dropWhile isLineBreak⟩ := rfl
  rw [skip_iff (Piece.front_eq_some_iff.mp hfront) rfl, byteLength_append, ← Nat.add_assoc,
    ← blanks_append_iff hbreaks, List.takeWhile_append_dropWhile]

end Lexes

namespace IsSpacing

/-- Spacing has no tokens in it, and does not change those behind it. -/
theorem lexes_append_iff {n : Nat} {cs rest : List Char} {ls : List Lexeme} (h : IsSpacing cs) :
    Lexes n (cs ++ rest) ls ↔ Lexes (n + byteLength cs) rest ls := by
  induction h generalizing n with
  | nil => rfl
  | blank hc _ ih =>
      rw [List.cons_append, Lexes.blank_iff hc, ih, Nat.add_assoc]
      rfl
  | @comment line b cs hline hb _ ih =>
      rw [List.cons_append, List.cons_append, List.append_assoc, List.cons_append,
        Lexes.comment_iff, takeWhile_line hline hb, dropWhile_line hline hb,
        Lexes.blank_iff (isBlank_of_isLineBreak hb), ih, ← List.cons_append, ← List.cons_append,
        byteLength_append, Nat.add_assoc, Nat.add_assoc]
      rfl

theorem lexes_nil {cs : List Char} (h : IsSpacing cs) (n : Nat) : Lexes n cs [] := by
  rw [← List.append_nil cs, h.lexes_append_iff]
  exact .done

/-- Behind a comment without a line break, the first line of it is in the comment. -/
theorem lexes_comment {line cs : List Char} (h : IsSpacing cs) (hline : ∀ c ∈ line, !isLineBreak c)
    (n : Nat) : Lexes n ('/' :: '/' :: (line ++ cs)) [] := by
  rw [Lexes.comment_iff, List.dropWhile_append_of_pos hline]
  exact h.dropWhile.lexes_nil _

end IsSpacing

/-! ## Pieces in front of something else -/

namespace Piece

theorem Matches.isWord_or_isFixed {t : Token} {cs : List Char} (h : Matches (some t) cs) :
    (∃ d ds, cs = d :: ds ∧ isNameStart d ∧ ∀ c ∈ ds, isNameRest c) ∨ t.IsFixed ∧ t ≠ .bool := by
  cases h with
  | @name c cs hc hcs => exact .inl ⟨c, cs, rfl, hc, hcs⟩
  | fixed ht =>
      by_cases hbool : t = .bool
      · subst hbool
        exact .inl ⟨'B', ['o', 'o', 'l'], rfl, rfl, List.all_eq_true.mp rfl⟩
      · exact .inr ⟨ht, hbool⟩

/-- A longest match does not go on with the next character. -/
theorem IsLongest.not_matches_snoc {p : Piece} {cs rest : List Char} {c : Char} {t? : Option Token}
    (h : p.IsLongest cs) (hrest : p.rest = c :: rest) : ¬ Matches t? (p.text ++ [c]) := by
  intro hmatch
  have happend : p.text ++ [c] ++ rest = cs := by
    rw [List.append_assoc, List.singleton_append, ← hrest, h.append]
  have hlen := h.longest t? _ rest happend hmatch
  simp at hlen

/-- A word is as long as it can be, so it ends where it does. -/
theorem IsLongest.endsWord {p : Piece} {cs ds : List Char} {d : Char} (h : p.IsLongest cs)
    (htext : p.text = d :: ds) (hd : isNameStart d) (hds : ∀ c ∈ ds, isNameRest c) :
    EndsWord p.rest := by
  intro c rest hrest
  by_contra hc
  rw [Bool.not_eq_false] at hc
  have hall : ∀ c' ∈ ds ++ [c], isNameRest c' := by
    rw [List.forall_mem_append, List.forall_mem_singleton]
    exact ⟨hds, hc⟩
  have hmatch := Matches.name hd hall
  rw [← List.cons_append, ← htext] at hmatch
  exact h.not_matches_snoc hrest hmatch

/-- A comment goes on to the end of the text, or to a line break, which is a part of it. -/
theorem IsLongest.rest_eq_nil_of_comment {p : Piece} {cs line : List Char} (h : p.IsLongest cs)
    (htext : p.text = '/' :: '/' :: line) (hline : ∀ c ∈ line, !isLineBreak c) : p.rest = [] := by
  cases hrest : p.rest with
  | nil => rfl
  | cons c rest =>
      have hmatch : Matches none ('/' :: '/' :: (line ++ [c])) := by
        by_cases hc : isLineBreak c
        · apply Matches.comment hline
          rw [List.forall_mem_singleton]
          exact hc
        · rw [← List.append_nil (line ++ [c])]
          apply Matches.comment
          · rw [List.forall_mem_append, List.forall_mem_singleton]
            exact ⟨hline, by simpa using hc⟩
          · exact List.forall_mem_nil _
      rw [← List.cons_append, ← List.cons_append, ← htext] at hmatch
      exact absurd hmatch (h.not_matches_snoc hrest)

/-- A token is the longest match in front of another text too, if a word ends there. -/
theorem IsLongest.change_rest {p : Piece} {cs rest : List Char} {t : Token} (h : p.IsLongest cs)
    (ht : p.token? = some t) (hrest : EndsWord p.rest → EndsWord rest) :
    (⟨p.token?, p.text, rest⟩ : Piece).IsLongest (p.text ++ rest) := by
  have hmatch := h.isMatch
  rw [ht] at hmatch
  rcases hmatch.isWord_or_isFixed with ⟨d, ds, htext, hd, hds⟩ | ⟨hfixed, hbool⟩
  · have hends := h.endsWord htext hd hds
    have hp : p = ⟨some (word (d :: ds)), d :: ds, p.rest⟩ := by
      apply h.unique
      rw [← h.append, htext]
      exact front_eq_some_iff.mp (front_word_append hd hds hends)
    rw [htext, congrArg token? hp]
    exact front_eq_some_iff.mp (front_word_append hd hds (hrest hends))
  · rw [ht, ← hmatch.text_eq]
    exact front_eq_some_iff.mp (front_of_isFixed hfixed hbool rest)

/-- A piece that is skipped is spacing, if it is not a comment at the end of the text. -/
theorem IsLongest.isSpacing_or_rest_eq_nil {p : Piece} {cs : List Char} (h : p.IsLongest cs)
    (ht : p.token? = none) : IsSpacing p.text ∨
      p.rest = [] ∧ ∃ line, p.text = '/' :: '/' :: line ∧ ∀ c ∈ line, !isLineBreak c := by
  have hmatch := h.isMatch
  rw [ht] at hmatch
  generalize htext : p.text = text at hmatch
  cases hmatch with
  | blanks hblank => exact .inl (.of_isBlank hblank)
  | @comment line breaks hline hbreaks =>
      cases breaks with
      | nil =>
          rw [List.append_nil] at htext ⊢
          exact .inr ⟨h.rest_eq_nil_of_comment htext hline, line, rfl, hline⟩
      | cons b bs =>
          rw [List.forall_mem_cons] at hbreaks
          have hbs : ∀ c ∈ bs, isBlank c := fun c hc => isBlank_of_isLineBreak (hbreaks.2 c hc)
          exact .inl (.comment hline hbreaks.1 (.of_isBlank hbs))

end Piece

/-! ## Offsets behind what is put in -/

theorem add_byteLength_ne {n : Nat} {cs : List Char} (h : cs ≠ []) : n + byteLength cs ≠ n := by
  have hpos := byteLength_pos_iff.mpr h
  omega

theorem exists_append_of_byteLength_le {cs ds before after : List Char}
    (h : cs ++ ds = before ++ after) (hle : byteLength cs ≤ byteLength before) :
    ∃ mid, before = cs ++ mid ∧ ds = mid ++ after := by
  rcases List.append_eq_append_iff.mp h with ⟨mid, hbefore, hds⟩ | ⟨mid, rfl, hafter⟩
  · exact ⟨mid, hbefore, hds⟩
  · have hmid : mid = [] := by grind [byteLength_append, byteLength_pos_iff]
    subst hmid
    exact ⟨[], by simp, hafter.symm⟩

/-- Where something begins that began at `n`, when `k` bytes are put in at `q`. What begins at `q`
itself is behind them. -/
def movedStart (q k n : Nat) : Nat := if q ≤ n then n + k else n

/-- Where something ends that ended at `n`, when `k` bytes are put in at `q`. What ends at `q`
itself is in front of them. -/
def movedStop (q k n : Nat) : Nat := if q < n then n + k else n

/-- What has a character in it and is behind the bytes that are put in moves by their number. -/
theorem Span.map_moved_behind {q k n m : Nat} (hq : q ≤ n) (hm : 0 < m) :
    (⟨n, n + m⟩ : Span).map (movedStart q k) (movedStop q k) = ⟨n + k, n + k + m⟩ := by
  unfold Span.map movedStart movedStop
  grind

theorem Span.map_moved_front {q k n m : Nat} (hq : n + m ≤ q) (hm : 0 < m) :
    (⟨n, n + m⟩ : Span).map (movedStart q k) (movedStop q k) = ⟨n, n + m⟩ := by
  unfold Span.map movedStart movedStop
  grind

/-- A text that stands behind the bytes that are put in has its tokens where it stands. -/
theorem Lexes.move {q k n : Nat} {cs : List Char} {ls : List Lexeme} (h : Lexes n cs ls)
    (hq : q ≤ n) :
    Lexes (n + k) cs (ls.map (Lexeme.mapSpan (movedStart q k) (movedStop q k))) := by
  induction h with
  | done => exact .done
  | @skip n cs ls p hp ht _ ih =>
      apply Lexes.skip hp ht
      rw [Nat.add_right_comm]
      exact ih (by omega)
  | @token n cs t ls p hp ht _ ih =>
      have hpos := byteLength_pos_iff.mpr hp.ne_nil
      rw [List.map_cons, Lexeme.mapSpan, Span.map_moved_behind hq hpos]
      apply Lexes.token hp ht
      rw [Nat.add_right_comm]
      exact ih (by omega)

/-! ## Gaps -/

/-- The offset is an end of the text, which begins at `n`, or of one of the tokens in it. -/
def IsGapIn (n : Nat) (cs : List Char) (ls : List Lexeme) (q : Nat) : Prop :=
  q = n ∨ q = n + byteLength cs ∨ ∃ l ∈ ls, q = l.span.start ∨ q = l.span.stop

/-- The offset is an end of the source or of one of its tokens. -/
def IsGap (source : String) (q : Nat) : Prop :=
  IsGapIn 0 source.toList (Scan.ofString source).lexemes q

theorem IsGap.isBoundary {source : String} {q : Nat} (h : IsGap source q) :
    IsBoundary source q := by
  rcases h with rfl | rfl | ⟨l, hl, rfl | rfl⟩
  · exact .zero source
  · exact ⟨source.toList, [], (List.append_nil _).symm, Nat.zero_add _⟩
  · exact (Scan.spells_of_mem hl).isIn.start_isBoundary
  · exact (Scan.spells_of_mem hl).isIn.stop_isBoundary

namespace IsGapIn

theorem le {n q : Nat} {cs : List Char} {ls : List Lexeme} (h : IsGapIn n cs ls q)
    (hlexes : Lexes n cs ls) : n ≤ q := by
  rcases h with rfl | rfl | ⟨l, hl, hq⟩
  · exact Nat.le_refl _
  · exact Nat.le_add_right _ _
  · obtain ⟨before, _, _, hspan⟩ := hlexes.exists_append hl
    rw [hspan] at hq
    dsimp only at hq
    omega

/-- No gap is inside of a piece that is skipped. -/
theorem of_skip {n q : Nat} {ls : List Lexeme} {p : Piece}
    (h : IsGapIn n (p.text ++ p.rest) ls q) (hq : q ≠ n) :
    IsGapIn (n + byteLength p.text) p.rest ls q := by
  rcases h with h | h | h
  · exact absurd h hq
  · rw [byteLength_append, ← Nat.add_assoc] at h
    exact .inr (.inl h)
  · exact .inr (.inr h)

/-- No gap is inside of a token. -/
theorem of_token {n q : Nat} {ls : List Lexeme} {t : Token} {p : Piece}
    (h : IsGapIn n (p.text ++ p.rest) (⟨t, ⟨n, n + byteLength p.text⟩⟩ :: ls) q) (hq : q ≠ n) :
    IsGapIn (n + byteLength p.text) p.rest ls q := by
  rcases h with h | h | ⟨l, hl, h⟩
  · exact absurd h hq
  · exact of_skip (.inr (.inl h)) hq
  · rcases List.mem_cons.mp hl with rfl | hl
    · exact .inl (h.resolve_left hq)
    · exact .inr (.inr ⟨l, hl, h⟩)

/-- A gap that is not in front of a piece is behind it. -/
theorem exists_append {n q : Nat} {before after : List Char} {ls : List Lexeme} {p : Piece}
    (h : IsGapIn (n + byteLength p.text) p.rest ls q)
    (hlater : Lexes (n + byteLength p.text) p.rest ls) (hq : q = n + byteLength before)
    (happend : p.text ++ p.rest = before ++ after) :
    ∃ mid, before = p.text ++ mid ∧ p.rest = mid ++ after ∧
      q = n + byteLength p.text + byteLength mid := by
  have hle := h.le hlater
  obtain ⟨mid, rfl, hrest⟩ := exists_append_of_byteLength_le happend (by omega)
  rw [byteLength_append, ← Nat.add_assoc] at hq
  exact ⟨mid, rfl, hrest, hq⟩

end IsGapIn

/-! ## Putting spacing in -/

section

variable {space : List Char} (hspace : IsSpacing space)

include hspace

theorem Lexes.insert_front {n q : Nat} {cs : List Char} {ls : List Lexeme} (h : Lexes n cs ls)
    (hq : q = n) :
    Lexes n (space ++ cs) (ls.map
      (Lexeme.mapSpan (movedStart q (byteLength space)) (movedStop q (byteLength space)))) := by
  subst hq
  rw [hspace.lexes_append_iff]
  exact h.move (Nat.le_refl q)

/-- A piece that is skipped in front of the gap is so still. If it is a comment without a line
break, it takes in what follows, but then the gap is at the end of the text. -/
theorem Lexes.skip_insert {n : Nat} {cs before after : List Char} {ls : List Lexeme} {p : Piece}
    (hp : p.IsLongest cs) (ht : p.token? = none) (hrest : p.rest = before ++ after)
    (h : Lexes (n + byteLength p.text) (before ++ (space ++ after)) ls) :
    Lexes n (p.text ++ (before ++ (space ++ after))) ls := by
  rcases hp.isSpacing_or_rest_eq_nil ht with hpiece | ⟨hnil, line, htext, hline⟩
  · exact hpiece.lexes_append_iff.mpr h
  · obtain ⟨rfl, rfl⟩ := List.append_eq_nil_iff.mp (hrest.symm.trans hnil)
    obtain rfl : ls = [] := nil_iff.mp (hspace.lexes_append_iff.mp h)
    rw [htext, List.nil_append, List.append_nil]
    exact hspace.lexes_comment hline n

theorem Lexes.token_insert {n : Nat} {cs before after : List Char} {t : Token} {ls : List Lexeme}
    {p : Piece} (hp : p.IsLongest cs) (ht : p.token? = some t) (hrest : p.rest = before ++ after)
    (h : Lexes (n + byteLength p.text) (before ++ (space ++ after)) ls) :
    Lexes n (p.text ++ (before ++ (space ++ after)))
      (⟨t, ⟨n, n + byteLength p.text⟩⟩ :: ls) := by
  have hends : EndsWord p.rest → EndsWord (before ++ (space ++ after)) := by
    rw [hrest]
    exact hspace.endsWord_insert
  exact Lexes.token (p := ⟨p.token?, p.text, before ++ (space ++ after)⟩)
    (hp.change_rest ht hends) ht h

/-- With spacing put in at a gap, the tokens of a text are the same. The pieces in front of the gap
stay where they are, down to the one that the gap is behind, and the others move. -/
theorem Lexes.insert {n q : Nat} {before after : List Char} {ls : List Lexeme}
    (h : Lexes n (before ++ after) ls) (hgap : IsGapIn n (before ++ after) ls q)
    (hq : q = n + byteLength before) :
    Lexes n (before ++ (space ++ after)) (ls.map
      (Lexeme.mapSpan (movedStart q (byteLength space)) (movedStop q (byteLength space)))) := by
  generalize hcs : before ++ after = cs at h hgap
  induction h generalizing before with
  | done =>
      obtain ⟨rfl, rfl⟩ := List.append_eq_nil_iff.mp hcs
      rw [List.nil_append, List.append_nil]
      exact hspace.lexes_nil _
  | @skip n cs ls p hp ht hlater ih =>
      -- The gap is at the beginning, or what is in front of it begins with this piece.
      by_cases hbefore : before = []
      · subst hbefore hcs
        exact insert_front hspace (.skip hp ht hlater) hq
      · have hfront : q ≠ n := hq ▸ add_byteLength_ne hbefore
        rw [← hp.append] at hcs hgap
        have hbehind := hgap.of_skip hfront
        obtain ⟨mid, rfl, hrest, hmid⟩ := hbehind.exists_append hlater hq hcs.symm
        rw [List.append_assoc]
        exact skip_insert hspace hp ht hrest (ih hmid hrest.symm hbehind)
  | @token n cs t ls p hp ht hlater ih =>
      by_cases hbefore : before = []
      · subst hbefore hcs
        exact insert_front hspace (.token hp ht hlater) hq
      · have hfront : q ≠ n := hq ▸ add_byteLength_ne hbefore
        rw [← hp.append] at hcs hgap
        have hbehind := hgap.of_token hfront
        obtain ⟨mid, rfl, hrest, hmid⟩ := hbehind.exists_append hlater hq hcs.symm
        have hpos := byteLength_pos_iff.mpr hp.ne_nil
        rw [List.append_assoc, List.map_cons, Lexeme.mapSpan,
          Span.map_moved_front (hbehind.le hlater) hpos]
        exact token_insert hspace hp ht hrest (ih hmid hrest.symm hbehind)

end

/-- The scanner finds the same tokens. -/
theorem Scan.ofString_insert {before space after : String} {ls : List Lexeme}
    (hspace : IsSpacing space.toList) (hscan : ofString (before ++ after) = ⟨ls, none⟩)
    (hgap : IsGap (before ++ after) (byteLength before.toList)) :
    ofString (before ++ space ++ after) = ⟨ls.map (Lexeme.mapSpan
      (movedStart (byteLength before.toList) (byteLength space.toList))
      (movedStop (byteLength before.toList) (byteLength space.toList))), none⟩ := by
  unfold IsGap at hgap
  rw [hscan, String.toList_append] at hgap
  rw [ofString_eq_iff, String.toList_append] at hscan
  rw [ofString_eq_iff, String.toList_append, String.toList_append, List.append_assoc]
  exact hscan.insert hspace hgap (Nat.zero_add _).symm

/-! ## Trees -/

def Binding.mapSpans (g h : Nat → Nat) : Binding → Binding
  | untyped x => untyped x
  | typed x τ => typed x (τ.mapSpans g h)

theorem Binding.Derives.mapSpans (g h : Nat → Nat) {ls : List Lexeme} {b : Binding}
    (hb : Derives ls b) : Derives (ls.map (Lexeme.mapSpan g h)) (b.mapSpans g h) := by
  cases hb with
  | untyped => exact .untyped
  | typed hτ => exact .typed (hτ.mapSpans g h)

section

variable (g h : Nat → Nat)

theorem Ty.eraseSpans_mapSpans (τ : Ty) : (τ.mapSpans g h).eraseSpans = τ.eraseSpans := by
  induction τ with
  | bool s => rfl
  | arrow a b s iha ihb => rw [mapSpans, eraseSpans, eraseSpans, iha, ihb]

theorem Expr.eraseSpans_mapSpans (e : Expr) : (e.mapSpans g h).eraseSpans = e.eraseSpans := by
  induction e with
  | var x s => rfl
  | lam x τ e s ih => rw [mapSpans, eraseSpans, eraseSpans, ih, Ty.eraseSpans_mapSpans]
  | app e f s ihe ihf => rw [mapSpans, eraseSpans, eraseSpans, ihe, ihf]

theorem Binding.eraseSpans_mapSpans (b : Binding) : (b.mapSpans g h).eraseSpans = b.eraseSpans := by
  cases b with
  | untyped x => rfl
  | typed x τ => rw [mapSpans, eraseSpans, eraseSpans, Ty.eraseSpans_mapSpans]

end

/-- White space or a comment that is put into a gap of the source (`IsGap`, between two tokens or
at an end) leaves all three parsers with the tree they gave, after `mapSpans`. The two functions
move an offset by the length of `space`: `movedStart` from `q` on, `movedStop` behind `q`, so no
node that ends at `q` grows. `Scan.ofString_insert` is the fact about the scanner. -/
theorem spacing_immaterial {source space : String} {q : Nat} (hspace : IsSpacing space.toList)
    (hgap : IsGap source q) :
    IsBoundary source q ∧
    ∀ before after : String, source = before ++ after → q = byteLength before.toList →
      let start := movedStart q (byteLength space.toList)
      let stop := movedStop q (byteLength space.toList)
      (∀ e, Expr.parse source = .ok e →
        Expr.parse (before ++ space ++ after) = .ok (e.mapSpans start stop) ∧
          (e.mapSpans start stop).sameAs e) ∧
      (∀ τ, Ty.parse source = .ok τ →
        Ty.parse (before ++ space ++ after) = .ok (τ.mapSpans start stop) ∧
          (τ.mapSpans start stop).sameAs τ) ∧
      (∀ b, Binding.parse source = .ok b →
        Binding.parse (before ++ space ++ after) = .ok (b.mapSpans start stop) ∧
          (b.mapSpans start stop).sameAs b) := by
  refine ⟨hgap.isBoundary, ?_⟩
  intro before after hsource hq start stop
  subst hsource hq
  refine ⟨?expr, ?type, ?binding⟩
  case expr =>
    intro e h
    obtain ⟨ls, hscan, he⟩ := Expr.parse_eq_ok_iff.mp h
    refine ⟨Expr.parse_eq_ok_iff.mpr ⟨_, Scan.ofString_insert hspace hscan hgap, ?_⟩, ?_⟩
    · exact he.mapSpans start stop
    · exact (Expr.sameAs_iff _ _).mpr (e.eraseSpans_mapSpans start stop)
  case type =>
    intro τ h
    obtain ⟨ls, hscan, hτ⟩ := Ty.parse_eq_ok_iff.mp h
    refine ⟨Ty.parse_eq_ok_iff.mpr ⟨_, Scan.ofString_insert hspace hscan hgap, ?_⟩, ?_⟩
    · exact hτ.mapSpans start stop
    · exact (Ty.sameAs_iff _ _).mpr (τ.eraseSpans_mapSpans start stop)
  case binding =>
    intro b h
    obtain ⟨ls, hscan, hb⟩ := Binding.parse_eq_ok_iff.mp h
    refine ⟨Binding.parse_eq_ok_iff.mpr ⟨_, Scan.ofString_insert hspace hscan hgap, ?_⟩, ?_⟩
    · exact hb.mapSpans start stop
    · exact (Binding.sameAs_iff _ _).mpr (b.eraseSpans_mapSpans start stop)

/-- A comment with a parenthesis in it is put in between a token and a blank of three bytes, and a
blank behind a comment that has no line break at its end. -/
theorem spacing_immaterial_comments :
    (Expr.parse "f\u3000x" = .ok (.app (.var "f" ⟨0, 1⟩) (.var "x" ⟨4, 5⟩) ⟨0, 5⟩) ∧
      Expr.parse ("f" ++ "// (\n" ++ "\u3000x") =
        .ok (.app (.var "f" ⟨0, 1⟩) (.var "x" ⟨9, 10⟩) ⟨0, 10⟩)) ∧
    (Binding.parse "x:Bool//b" = .ok (.typed "x" (.bool ⟨2, 6⟩)) ∧
      Binding.parse ("x:Bool//b" ++ "\u2003" ++ "") = .ok (.typed "x" (.bool ⟨2, 6⟩))) := by
  have hexpr : Expr.parse "f\u3000x" = .ok (.app (.var "f" ⟨0, 1⟩) (.var "x" ⟨4, 5⟩) ⟨0, 5⟩) := by
    cbv
  have hbinding : Binding.parse "x:Bool//b" = .ok (.typed "x" (.bool ⟨2, 6⟩)) := by cbv
  have hscan : (Scan.ofString "f\u3000x").lexemes =
      [⟨.ident "f", ⟨0, 1⟩⟩, ⟨.ident "x", ⟨4, 5⟩⟩] := by cbv
  have hcomment : IsSpacing "// (\n".toList :=
    @IsSpacing.comment [' ', '('] '\n' [] (List.all_eq_true.mp rfl) rfl .nil
  have hblank : IsSpacing "\u2003".toList := .blank rfl .nil
  have hgap : IsGap "f\u3000x" 1 := by
    refine .inr (.inr ⟨⟨.ident "f", ⟨0, 1⟩⟩, ?_, .inr rfl⟩)
    rw [hscan]
    exact List.mem_cons_self
  have hend : IsGap "x:Bool//b" 9 := .inr (.inl rfl)
  refine ⟨⟨hexpr, ?_⟩, hbinding, ?_⟩
  · exact (((spacing_immaterial hcomment hgap).2 "f" "\u3000x" rfl rfl).1 _ hexpr).1
  · exact (((spacing_immaterial hblank hend).2 "x:Bool//b" "" rfl rfl).2.2 _ hbinding).1

end Stlc
