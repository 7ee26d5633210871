import Stlc.Proofs.Scanning

/-!
# Longest matches

The lexical rules are about single texts: which ones are blanks, a comment, a name or a fixed word
(`Piece.Matches`). How a source is divided follows from them and from two principles. The piece that
is cut off is the longest one that matches any rule, and where a name and a fixed word match the
same text, it is the word (`Piece.IsLongest`). `Lexes` divides a whole source in this way, and says
where in it each token is.

## Key lemmas

* `Piece.front_eq_some_iff` — the scanner cuts off the longest match, if there is any.
* `Scan.ofString_eq_iff` — what it finds in a source are the tokens that the source divides into.
* `Lexes.spells` — the span of a token is that of its text.
-/

namespace Stlc

theorem byteLength_append (cs ds : List Char) :
    byteLength (cs ++ ds) = byteLength cs + byteLength ds := by
  induction cs with
  | nil => simp [byteLength]
  | cons c cs ih =>
      simp only [byteLength, List.cons_append, List.foldr_cons] at ih ⊢
      rw [ih, Nat.add_assoc]

theorem byteLength_pos_iff {cs : List Char} : 0 < byteLength cs ↔ cs ≠ [] := by
  cases cs with
  | nil => simp [byteLength]
  | cons c cs =>
      simp only [byteLength, List.foldr_cons, ne_eq, reduceCtorEq, not_false_eq_true, iff_true]
      exact Nat.add_pos_left c.utf8Size_pos _

theorem length_le_length_takeWhile {q : Char → Bool} {cs : List Char} (h : ∀ c ∈ cs, q c)
    (rest : List Char) : cs.length ≤ ((cs ++ rest).takeWhile q).length := by
  rw [List.takeWhile_append_of_pos h, List.length_append]
  exact Nat.le_add_right _ _

/-! ## The lexical rules -/

/-- A word that is always written in the same way. -/
def Token.IsFixed (t : Token) : Prop := t.terminal ≠ .ident

instance (t : Token) : Decidable t.IsFixed := inferInstanceAs (Decidable (¬ _))

namespace Piece

/-- A text matches a rule, and this is the token it then is, or `none` for what is skipped. -/
inductive Matches : Option Token → List Char → Prop where
  /-- Any number of blanks, even none. -/
  | blanks {cs} : (∀ c ∈ cs, isBlank c) → Matches none cs
  /-- A comment takes in the breaks at the end of its line, if there are any. -/
  | comment {line breaks} : (∀ c ∈ line, !isLineBreak c) → (∀ c ∈ breaks, isLineBreak c) →
      Matches none ('/' :: '/' :: (line ++ breaks))
  | name {c cs} : isNameStart c → (∀ d ∈ cs, isNameRest d) →
      Matches (some (.ident (String.ofList (c :: cs)))) (c :: cs)
  | fixed {t : Token} : t.IsFixed → Matches (some t) t.text.toList

/-- The piece is a match at the front of a text, no match there is longer, and it is a fixed word if
it is spelled like one. -/
structure IsLongest (p : Piece) (cs : List Char) : Prop where
  append : p.text ++ p.rest = cs
  ne_nil : p.text ≠ []
  isMatch : Matches p.token? p.text
  longest : ∀ t? text rest, text ++ rest = cs → Matches t? text → text.length ≤ p.text.length
  fixed_first : ∀ t : Token, t.IsFixed → t.text.toList = p.text → p.token? = some t

theorem Matches.text_eq {t : Token} {cs : List Char} (h : Matches (some t) cs) :
    t.text.toList = cs := by
  cases h with
  | name _ _ => exact String.toList_ofList
  | fixed _ => rfl

/-! ## The scanner finds a match -/

theorem matches_word {c : Char} {cs : List Char} (hc : isNameStart c)
    (hcs : ∀ d ∈ cs, isNameRest d) : Matches (some (word (c :: cs))) (c :: cs) := by
  rw [word]
  split
  · next h =>
      rw [h]
      exact Matches.fixed (t := .bool) (by decide)
  · exact .name hc hcs

theorem isMatch_of_front {cs : List Char} {p : Piece} (h : front cs = some p) :
    Matches p.token? p.text := by
  unfold front at h
  split at h
  case h_1 => cases h
  case h_8 =>
    cases h
    exact .comment (List.all_eq_true.mp List.all_takeWhile) (List.all_eq_true.mp List.all_takeWhile)
  case h_9 c cs _ _ _ _ _ _ _ =>
    split at h
    · next hc =>
        cases h
        apply Matches.blanks
        intro d hd
        rcases List.mem_cons.mp hd with rfl | hd
        · exact hc
        · exact List.all_eq_true.mp List.all_takeWhile d hd
    · split at h
      · next hc =>
          cases h
          exact matches_word hc (List.all_eq_true.mp List.all_takeWhile)
      · cases h
  all_goals
    cases h
    exact Matches.fixed (by decide)

/-! ## No match is longer -/

theorem front_of_isFixed {t : Token} (ht : t.IsFixed) (hbool : t ≠ .bool) (rest : List Char) :
    front (t.text.toList ++ rest) = some ⟨some t, t.text.toList, rest⟩ := by
  cases t with
  | ident x => exact absurd rfl ht
  | bool => exact absurd rfl hbool
  | _ => rfl

theorem length_comment_le {line breaks : List Char} (hline : ∀ c ∈ line, !isLineBreak c)
    (hbreaks : ∀ c ∈ breaks, isLineBreak c) (rest : List Char) :
    (line ++ breaks).length ≤ ((line ++ breaks ++ rest).takeWhile (!isLineBreak ·) ++
      ((line ++ breaks ++ rest).dropWhile (!isLineBreak ·)).takeWhile isLineBreak).length := by
  rw [List.append_assoc, List.takeWhile_append_of_pos hline, List.dropWhile_append_of_pos hline]
  cases breaks with
  | nil =>
      simp only [List.append_nil, List.length_append]
      omega
  | cons b bs =>
      -- The line ends where its breaks begin, so all of them are in the comment.
      have hb : (!isLineBreak b) = false := by simp [hbreaks b List.mem_cons_self]
      have hall := length_le_length_takeWhile hbreaks rest
      rw [List.cons_append, List.takeWhile_cons_of_neg (by simp [hb]),
        List.dropWhile_cons_of_neg (by simp [hb]), ← List.cons_append, List.append_nil]
      simp only [List.length_append]
      omega

theorem exists_front_of_matches {t? : Option Token} {text : List Char} (h : Matches t? text)
    (hne : text ≠ []) (rest : List Char) :
    ∃ p, front (text ++ rest) = some p ∧ text.length ≤ p.text.length := by
  cases h with
  | blanks hcs =>
      obtain ⟨c, cs, rfl⟩ := List.exists_cons_of_ne_nil hne
      refine ⟨_, front_of_isBlank (hcs c List.mem_cons_self), Nat.succ_le_succ ?_⟩
      exact length_le_length_takeWhile (fun d hd => hcs d (List.mem_cons_of_mem c hd)) rest
  | comment hline hbreaks =>
      exact ⟨_, rfl, Nat.add_le_add_right (length_comment_le hline hbreaks rest) 2⟩
  | name hc hcs =>
      exact ⟨_, front_of_isNameStart hc, Nat.succ_le_succ (length_le_length_takeWhile hcs rest)⟩
  | @fixed t ht =>
      by_cases hbool : t = .bool
      · -- The keyword is spelled like a name, and the name may go on.
        subst hbool
        have hlen : ['o', 'o', 'l'].length ≤
            ((['o', 'o', 'l'] ++ rest).takeWhile isNameRest).length :=
          length_le_length_takeWhile (List.all_eq_true.mp rfl) rest
        have htext : Token.bool.text.toList = ['B', 'o', 'o', 'l'] := rfl
        rw [htext, List.cons_append]
        exact ⟨_, front_of_isNameStart rfl, Nat.succ_le_succ hlen⟩
      · exact ⟨_, front_of_isFixed ht hbool rest, Nat.le_refl _⟩

theorem token?_of_front_word {c : Char} {cs : List Char} {p : Piece} (hc : isNameStart c)
    (h : front (c :: cs) = some p) : p.token? = some (word p.text) := by
  rw [front_of_isNameStart hc] at h
  cases h
  rfl

theorem fixed_first_of_front {cs : List Char} {p : Piece} (h : front cs = some p) {t : Token}
    (ht : t.IsFixed) (htext : t.text.toList = p.text) : p.token? = some t := by
  rw [← front_append h, ← htext] at h
  by_cases hbool : t = .bool
  · subst hbool
    have hword := @token?_of_front_word 'B' _ _ rfl h
    rw [hword, ← htext]
    rfl
  · rw [front_of_isFixed ht hbool] at h
    exact (congrArg token? (Option.some.inj h)).symm

/-! ## The scanner and the principles -/

theorem isLongest_of_front {cs : List Char} {p : Piece} (h : front cs = some p) :
    p.IsLongest cs where
  append := front_append h
  ne_nil := front_text_ne_nil h
  isMatch := isMatch_of_front h
  longest := by
    intro t? text rest happend hmatch
    by_cases hne : text = []
    · rw [hne]
      exact Nat.zero_le _
    · obtain ⟨q, hq, hlen⟩ := exists_front_of_matches hmatch hne rest
      rw [happend, h] at hq
      cases hq
      exact hlen
  fixed_first := fun _ ht htext => fixed_first_of_front h ht htext

/-- A text that is skipped is not a name. -/
theorem Matches.isFixed_of_skipped {cs : List Char} {t : Token} (hne : cs ≠ [])
    (h : Matches none cs) (ht : Matches (some t) cs) : t.IsFixed := by
  cases ht with
  | fixed ht => exact ht
  | @name c cs hc _ =>
      exfalso
      cases h with
      | blanks hcs =>
          have hblank := not_isBlank_of_isNameStart hc
          rw [hcs c List.mem_cons_self] at hblank
          cases hblank
      | comment => exact absurd hc (by decide)

theorem Matches.isFixed_or_eq_ident {cs : List Char} {t : Token} (h : Matches (some t) cs) :
    t.IsFixed ∨ t = .ident (String.ofList cs) := by
  cases h with
  | name _ _ => exact .inr rfl
  | fixed ht => exact .inl ht

theorem IsLongest.unique {cs : List Char} {p q : Piece} (hp : p.IsLongest cs)
    (hq : q.IsLongest cs) : p = q := by
  obtain ⟨t?, text, rest⟩ := p
  obtain ⟨u?, text', rest'⟩ := q
  have hlen : text.length = text'.length :=
    Nat.le_antisymm (hq.longest _ _ _ hp.append hp.isMatch) (hp.longest _ _ _ hq.append hq.isMatch)
  obtain ⟨rfl, rfl⟩ := List.append_inj (hp.append.trans hq.append.symm) hlen
  have ht := hp.isMatch
  have hu := hq.isMatch
  have htoken : t? = u? := by
    cases t? with
    | none =>
        cases u? with
        | none => rfl
        | some u =>
            have hfixed := ht.isFixed_of_skipped hp.ne_nil hu
            exact hp.fixed_first u hfixed hu.text_eq
    | some t =>
        cases u? with
        | none =>
            have hfixed := hu.isFixed_of_skipped hp.ne_nil ht
            exact (hq.fixed_first t hfixed ht.text_eq).symm
        | some u =>
            rcases ht.isFixed_or_eq_ident with hfixed | hname
            · exact (hq.fixed_first t hfixed ht.text_eq).symm
            · rcases hu.isFixed_or_eq_ident with hfixed | hname'
              · exact hp.fixed_first u hfixed hu.text_eq
              · rw [hname, hname']
  rw [htoken]

/-- The scanner cuts off the longest match, and it finds one if there is any. -/
theorem front_eq_some_iff {cs : List Char} {p : Piece} :
    front cs = some p ↔ p.IsLongest cs := by
  constructor
  · exact isLongest_of_front
  · intro h
    obtain ⟨q, hq, _⟩ := exists_front_of_matches h.isMatch h.ne_nil p.rest
    rw [h.append] at hq
    rw [hq, (isLongest_of_front hq).unique h]

/-- It finds none just where no rule matches, except by the empty text. -/
theorem front_eq_none_iff {cs : List Char} :
    front cs = none ↔ ∀ t? text rest, text ++ rest = cs → Matches t? text → text = [] := by
  constructor
  · rintro h t? text rest rfl hmatch
    by_contra hne
    obtain ⟨p, hp, _⟩ := exists_front_of_matches hmatch hne rest
    rw [h] at hp
    cases hp
  · intro h
    cases hp : front cs with
    | none => rfl
    | some p =>
        have hlongest := front_eq_some_iff.mp hp
        exact absurd (h p.token? p.text p.rest hlongest.append hlongest.isMatch) hlongest.ne_nil

end Piece

/-! ## Dividing a source -/

/-- A text that begins at offset `n` is divided to its end, and `ls` are the tokens in it. -/
inductive Lexes : Nat → List Char → List Lexeme → Prop where
  | done {n} : Lexes n [] []
  | skip {n cs ls} {p : Piece} : p.IsLongest cs → p.token? = none →
      Lexes (n + byteLength p.text) p.rest ls → Lexes n cs ls
  | token {n cs t ls} {p : Piece} : p.IsLongest cs → p.token? = some t →
      Lexes (n + byteLength p.text) p.rest ls →
      Lexes n cs (⟨t, ⟨n, n + byteLength p.text⟩⟩ :: ls)

theorem Scan.lexes_of_scanFrom {n : Nat} {cs : List Char} {ls : List Lexeme}
    (h : scanFrom n cs = ⟨ls, none⟩) : Lexes n cs ls := by
  fun_induction scanFrom n cs generalizing ls with
  | case1 =>
      cases h
      exact .done
  | case2 => cases h
  | case3 n cs hne p hp stop later ht =>
      rename_i ih
      exact .skip (Piece.front_eq_some_iff.mp hp) ht (ih h)
  | case4 n cs hne p hp stop later t ht =>
      rename_i ih
      simp only [Scan.mk.injEq] at h
      obtain ⟨rfl, hstuck⟩ := h
      have hlater : later = ⟨later.lexemes, none⟩ := congrArg (Scan.mk later.lexemes) hstuck
      exact .token (Piece.front_eq_some_iff.mp hp) ht (ih hlater)

theorem Lexes.scanFrom {n : Nat} {cs : List Char} {ls : List Lexeme} (h : Lexes n cs ls) :
    Scan.scanFrom n cs = ⟨ls, none⟩ := by
  induction h with
  | done => rw [Scan.scanFrom, if_pos rfl]
  | skip hp ht _ ih =>
      rw [Scan.scanFrom_of_front (Piece.front_eq_some_iff.mpr hp), ht]
      exact ih
  | token hp ht _ ih => rw [Scan.scanFrom_of_front (Piece.front_eq_some_iff.mpr hp), ht, ih]

/-- The scanner gets to the end of a source if it can be divided, and finds the tokens in it. -/
theorem Scan.ofString_eq_iff {source : String} {ls : List Lexeme} :
    ofString source = ⟨ls, none⟩ ↔ Lexes 0 source.toList ls := by
  constructor
  · exact lexes_of_scanFrom
  · exact Lexes.scanFrom

/-! ## Where the tokens are -/

/-- The part of a source at a span is this text. -/
def Span.Spells (s : Span) (source text : String) : Prop :=
  ∃ before after, source.toList = before ++ (text.toList ++ after) ∧
    s = ⟨byteLength before, byteLength before + byteLength text.toList⟩

theorem Lexes.exists_append {n : Nat} {cs : List Char} {ls : List Lexeme} (h : Lexes n cs ls)
    {l : Lexeme} (hl : l ∈ ls) :
    ∃ before after, cs = before ++ (l.token.text.toList ++ after) ∧
      l.span = ⟨n + byteLength before, n + byteLength before + byteLength l.token.text.toList⟩ := by
  induction h with
  | done => cases hl
  | @skip n cs ls p hp _ _ ih =>
      obtain ⟨before, after, hrest, hspan⟩ := ih hl
      refine ⟨p.text ++ before, after, ?_, ?_⟩
      · rw [List.append_assoc, ← hrest, hp.append]
      · rw [byteLength_append, ← Nat.add_assoc]
        exact hspan
  | @token n cs t ls p hp ht _ ih =>
      rcases List.mem_cons.mp hl with rfl | hl
      · have htext : t.text.toList = p.text := by
          have hmatch := hp.isMatch
          rw [ht] at hmatch
          exact hmatch.text_eq
        refine ⟨[], p.rest, ?_, ?_⟩
        · rw [htext]
          exact hp.append.symm
        · rw [htext]
          rfl
      · obtain ⟨before, after, hrest, hspan⟩ := ih hl
        refine ⟨p.text ++ before, after, ?_, ?_⟩
        · rw [List.append_assoc, ← hrest, hp.append]
        · rw [byteLength_append, ← Nat.add_assoc]
          exact hspan

theorem Lexes.spells {source : String} {ls : List Lexeme} (h : Lexes 0 source.toList ls)
    {l : Lexeme} (hl : l ∈ ls) : l.span.Spells source l.token.text := by
  obtain ⟨before, after, htext, hspan⟩ := h.exists_append hl
  rw [Nat.zero_add] at hspan
  exact ⟨before, after, htext, hspan⟩

end Stlc
