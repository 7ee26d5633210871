import Stlc.Proofs.Slices

/-!
# The pieces of a source

A source is divided into pieces, which are spelled in it one after the other: each is the longest
match of a lexical rule where it begins, and they stop where no rule matches any more, except by the
empty text (`IsDivision`). There is one such division of every text, whether or not it takes in all
of it (`exists_isDivision`, `IsDivision.unique`), and the scanner finds the tokens among its pieces
(`IsDivision.scanFrom`).

That scanning ends is seen from a single round of it (`Scan.Round`). A piece that is cut off has
characters, although blanks are matched by the empty text as well.

The tokens that are found, written with a blank between each two of them, are found again
(`Scan.Reads.intercalate`): a word ends at a blank.

The main statement is `maximal_munch`.
-/

namespace Stlc

/-! ## Divisions -/

/-- The text is spelled by the pieces and by what is left. Each piece is the longest match where it
begins, and in front of what is left only the empty text matches a rule. -/
structure IsDivision (cs : List Char) (ps : List Piece) (rest : List Char) : Prop where
  append : ps.flatMap Piece.text ++ rest = cs
  isLongest : ∀ p after, p :: after <:+ ps →
    p.IsLongest ((p :: after).flatMap Piece.text ++ rest)
  no_match : ∀ t? text more, text ++ more = rest → Piece.Matches t? text → text = []

namespace IsDivision

variable {cs rest : List Char} {p : Piece} {ps : List Piece}

theorem nil_iff : IsDivision cs [] rest ↔ rest = cs ∧ Piece.front cs = none := by
  rw [Piece.front_eq_none_iff]
  constructor
  · intro h
    obtain rfl : rest = cs := h.append
    exact ⟨rfl, h.no_match⟩
  · rintro ⟨rfl, h⟩
    exact ⟨rfl, fun _ _ hsuffix => absurd (List.suffix_nil.mp hsuffix) (List.cons_ne_nil _ _), h⟩

/-- The first piece is the longest match in the whole text, and the others divide what it leaves. -/
theorem cons_iff : IsDivision cs (p :: ps) rest ↔ p.IsLongest cs ∧ IsDivision p.rest ps rest := by
  constructor
  · intro h
    have hp := h.isLongest p ps List.suffix_rfl
    have happend := hp.append
    rw [List.flatMap_cons, List.append_assoc] at happend
    rw [h.append] at hp
    refine ⟨hp, (List.append_cancel_left happend).symm, ?_, h.no_match⟩
    intro q after hsuffix
    exact h.isLongest q after (hsuffix.trans (List.suffix_cons p ps))
  · rintro ⟨hp, h⟩
    have happend : (p :: ps).flatMap Piece.text ++ rest = cs := by
      rw [List.flatMap_cons, List.append_assoc, h.append, hp.append]
    refine ⟨happend, ?_, h.no_match⟩
    intro q after hsuffix
    rcases List.suffix_cons_iff.mp hsuffix with heq | hsuffix
    · cases heq
      rw [happend]
      exact hp
    · exact h.isLongest q after hsuffix

/-- There is one way to divide a text. -/
theorem unique {rest' : List Char} {qs : List Piece} (h : IsDivision cs ps rest)
    (h' : IsDivision cs qs rest') : qs = ps ∧ rest' = rest := by
  induction ps generalizing cs qs with
  | nil =>
      obtain ⟨rfl, hfront⟩ := nil_iff.mp h
      cases qs with
      | nil => exact ⟨rfl, (nil_iff.mp h').1⟩
      | cons q qs =>
          rw [Piece.front_eq_some_iff.mpr (cons_iff.mp h').1] at hfront
          cases hfront
  | cons p ps ih =>
      obtain ⟨hp, h⟩ := cons_iff.mp h
      cases qs with
      | nil =>
          obtain ⟨_, hfront⟩ := nil_iff.mp h'
          rw [Piece.front_eq_some_iff.mpr hp] at hfront
          cases hfront
      | cons q qs =>
          obtain ⟨hq, h'⟩ := cons_iff.mp h'
          obtain rfl := hp.unique hq
          obtain ⟨rfl, rfl⟩ := ih h h'
          exact ⟨rfl, rfl⟩

/-- There are no more pieces than bytes. -/
theorem length_le (h : IsDivision cs ps rest) : ps.length ≤ byteLength cs := by
  induction ps generalizing cs with
  | nil => exact Nat.zero_le _
  | cons p ps ih =>
      obtain ⟨hp, h⟩ := cons_iff.mp h
      have hpos := byteLength_pos_iff.mpr hp.ne_nil
      have hlater := ih h
      rw [← hp.append, byteLength_append, List.length_cons]
      omega

end IsDivision

/-- Every text can be divided. What a piece leaves is shorter than the text, so that pieces can be
cut off until there is none. -/
theorem exists_isDivision (cs : List Char) : ∃ ps rest, IsDivision cs ps rest := by
  cases hp : Piece.front cs with
  | none => exact ⟨[], cs, IsDivision.nil_iff.mpr ⟨rfl, hp⟩⟩
  | some p =>
      have hshorter := Piece.length_rest_lt hp
      obtain ⟨ps, rest, h⟩ := exists_isDivision p.rest
      exact ⟨p :: ps, rest, IsDivision.cons_iff.mpr ⟨Piece.front_eq_some_iff.mp hp, h⟩⟩
termination_by cs.length

/-! ## The tokens of a division -/

namespace Piece

/-- The token that a piece is at offset `n`, if it is one. -/
def lexemes (n : Nat) (p : Piece) : List Lexeme :=
  match p.token? with
  | none => []
  | some t => [⟨t, ⟨n, n + byteLength p.text⟩⟩]

/-- The tokens among some pieces, the first of which begins at offset `n`. -/
def lexemesFrom (n : Nat) : List Piece → List Lexeme
  | [] => []
  | p :: ps => p.lexemes n ++ lexemesFrom (n + byteLength p.text) ps

/-- A piece is the keyword if it is spelled like it, and then only. -/
theorem IsLongest.token?_eq_bool_iff {p : Piece} {cs : List Char} (h : p.IsLongest cs) :
    p.token? = some .bool ↔ p.text = Token.bool.text.toList := by
  constructor
  · intro ht
    have hmatch := h.isMatch
    rw [ht] at hmatch
    exact hmatch.text_eq.symm
  · intro htext
    exact h.fixed_first .bool (by decide) htext.symm

end Piece

namespace Scan

/-- The scanner goes on behind the piece that it cuts off. -/
theorem scanFrom_of_isLongest {cs : List Char} {p : Piece} (h : p.IsLongest cs) (n : Nat) :
    scanFrom n cs = ⟨p.lexemes n ++ (scanFrom (n + byteLength p.text) p.rest).lexemes,
      (scanFrom (n + byteLength p.text) p.rest).stuckAt?⟩ := by
  rw [scanFrom_of_front (Piece.front_eq_some_iff.mpr h), Piece.lexemes]
  cases p.token? <;> rfl

theorem scanFrom_of_front_eq_none {cs : List Char} (h : Piece.front cs = none) (n : Nat) :
    scanFrom n cs = ⟨[], if cs = [] then none else some n⟩ := by
  rw [scanFrom]
  split
  · rfl
  · split
    · rfl
    · next p hp =>
        rw [h] at hp
        cases hp

end Scan

/-- The scanner finds the tokens among the pieces, and is stuck where something is left. -/
theorem IsDivision.scanFrom {cs rest : List Char} {ps : List Piece} (h : IsDivision cs ps rest)
    (n : Nat) : Scan.scanFrom n cs = ⟨Piece.lexemesFrom n ps,
      if rest = [] then none else some (n + byteLength (ps.flatMap Piece.text))⟩ := by
  induction ps generalizing cs n with
  | nil =>
      obtain ⟨rfl, hfront⟩ := nil_iff.mp h
      exact Scan.scanFrom_of_front_eq_none hfront n
  | cons p ps ih =>
      obtain ⟨hp, h⟩ := cons_iff.mp h
      rw [Scan.scanFrom_of_isLongest hp, ih h, List.flatMap_cons, byteLength_append, Nat.add_assoc]
      rfl

/-! ## One round -/

/-- What the scanner finds, by its first round: `cs` is what is left of a text at offset `n`. -/
inductive Scan.Round (n : Nat) (cs : List Char) : Scan → Prop where
  /-- Nothing is left. -/
  | done : cs = [] → Round n cs ⟨[], none⟩
  /-- Something is left, but only the empty text matches a rule there. -/
  | stuck : cs ≠ [] → (∀ t? text more, text ++ more = cs → Piece.Matches t? text → text = []) →
      Round n cs ⟨[], some n⟩
  /-- A piece of some bytes is cut off, and the scanner goes on with fewer bytes. -/
  | piece {p : Piece} : p.IsLongest cs → 0 < byteLength p.text →
      byteLength p.rest < byteLength cs →
      Round n cs ⟨p.lexemes n ++ (scanFrom (n + byteLength p.text) p.rest).lexemes,
        (scanFrom (n + byteLength p.text) p.rest).stuckAt?⟩

theorem Scan.round (n : Nat) (cs : List Char) : Round n cs (scanFrom n cs) := by
  cases hp : Piece.front cs with
  | none =>
      rw [scanFrom_of_front_eq_none hp]
      split
      · next hnil => exact .done hnil
      · next hne => exact .stuck hne (Piece.front_eq_none_iff.mp hp)
  | some p =>
      have hlongest := Piece.front_eq_some_iff.mp hp
      have hpos := byteLength_pos_iff.mpr hlongest.ne_nil
      have hshorter : byteLength p.rest < byteLength cs := by
        rw [← hlongest.append, byteLength_append]
        exact Nat.lt_add_of_pos_left hpos
      rw [scanFrom_of_isLongest hlongest]
      exact .piece hlongest hpos hshorter

/-! ## Tokens with blanks between them -/

namespace Scan.Reads

theorem of_token {t : Token} (ht : ∀ x, t = .ident x → IsName x) {rest : List Char}
    (h : EndsWord rest) : Reads (t.text.toList ++ rest) [t] rest := by
  cases t with
  | ident x => exact .ident (ht x rfl) h
  | bool => exact .bool h
  | _ => exact .token (Piece.front_of_isFixed (by decide) (by decide) rest) rfl .done

/-- Tokens are read off their texts, if there is a blank between each two of them. -/
theorem intercalate {ts : List Token} (hts : ∀ x, .ident x ∈ ts → IsName x) :
    Reads (" ".intercalate (ts.map Token.text)).toList ts [] := by
  induction ts with
  | nil => exact .done
  | cons t ts ih =>
      have ht : ∀ x, t = .ident x → IsName x := by
        rintro x rfl
        exact hts x List.mem_cons_self
      cases ts with
      | nil =>
          rw [List.map_singleton, String.intercalate_singleton, ← List.append_nil t.text.toList]
          exact .of_token ht endsWord_nil
      | cons u ts =>
          have hlater := ih fun x hx => hts x (List.mem_cons_of_mem t hx)
          have hblank := hlater.blank (List.cons_ne_nil u ts)
          rw [List.map_cons, List.map_cons, String.intercalate_cons_cons, String.toList_append,
            String.toList_append, List.append_assoc]
          exact (Reads.of_token ht (endsWord_cons rfl)).append hblank

end Scan.Reads

/-- Every identifier that is found is a name, wherever the scanner stops. -/
theorem Scan.isName_of_mem {source : String} {x : String} {s : Span}
    (h : ⟨.ident x, s⟩ ∈ (ofString source).lexemes) : IsName x := by
  obtain ⟨before, after, _, hlexes, _⟩ := exists_lexes 0 source.toList
  have hread := reads_of_scanFrom hlexes.scanFrom
  exact hread.isName (List.mem_map_of_mem h)

/-- The tokens that are found in a source are found again, with a blank between each two of them. -/
theorem Scan.exists_ofString_intercalate (source : String) :
    ∃ ls, ofString (" ".intercalate ((ofString source).lexemes.map (·.token.text))) = ⟨ls, none⟩ ∧
      ls.map Lexeme.token = (ofString source).lexemes.map Lexeme.token := by
  have hread : Reads (" ".intercalate (((ofString source).lexemes.map Lexeme.token).map
      Token.text)).toList ((ofString source).lexemes.map Lexeme.token) [] := by
    apply Reads.intercalate
    intro x hx
    obtain ⟨⟨t, s⟩, hmem, rfl⟩ := List.mem_map.mp hx
    exact isName_of_mem hmem
  rw [List.map_map] at hread
  exact hread.scanFrom 0

/-! ## Maximal munch -/

/-- **Maximal munch.** The scanner's pieces are the one `IsDivision` of the source: each the
longest match of a rule where it begins, and the keyword iff it is spelled like it.
`Scan.ofString` keeps the lexemes among them, each of which `Spells` its token, and stops at
`stuckAt?`, where only the empty text matches. Joined by blanks, the tokens are scanned again as
they are.

`Scan.Round` says that every round makes progress, whatever the text; and a `Reader` reports an
`invalidToken` iff the scanner is stuck there and the reader takes every lexeme in front. -/
theorem maximal_munch (source : String) :
    (∃ ps rest, IsDivision source.toList ps rest ∧
      (∀ qs rest', IsDivision source.toList qs rest' → qs = ps ∧ rest' = rest) ∧
      (∀ p ∈ ps, p.token? = some .bool ↔ p.text = Token.bool.text.toList) ∧
      ps.length ≤ byteLength source.toList ∧
      (Scan.ofString source).lexemes = Piece.lexemesFrom 0 ps ∧
      (Scan.ofString source).stuckAt? =
        if rest = [] then none else some (byteLength (ps.flatMap Piece.text))) ∧
    (∀ l ∈ (Scan.ofString source).lexemes, l.span.Spells source l.token.text) ∧
    (∃ ls, Scan.ofString (" ".intercalate ((Scan.ofString source).lexemes.map (·.token.text))) =
        ⟨ls, none⟩ ∧
      ls.map Lexeme.token = (Scan.ofString source).lexemes.map Lexeme.token) ∧
    (∀ n cs, Scan.Round n cs (Scan.scanFrom n cs)) ∧
    (∀ (σ α : Type) (R : Reader σ α) (m : Nat), R.parse source = .error (.invalidToken m) ↔
      (Scan.ofString source).stuckAt? = some m ∧
        (R.feed R.start (Scan.ofString source).lexemes).isSome) := by
  refine ⟨?division, ?spans, ?again, ?rounds, ?reports⟩
  case division =>
    obtain ⟨ps, rest, h⟩ := exists_isDivision source.toList
    have hscan := h.scanFrom 0
    rw [Nat.zero_add] at hscan
    refine ⟨ps, rest, h, ?_, ?_, h.length_le, congrArg Scan.lexemes hscan,
      congrArg Scan.stuckAt? hscan⟩
    · intro qs rest' h'
      exact h.unique h'
    · intro p hp
      obtain ⟨before, after, rfl⟩ := List.append_of_mem hp
      exact (h.isLongest p after (List.suffix_append before _)).token?_eq_bool_iff
  case spans =>
    intro l hl
    exact Scan.spells_of_mem hl
  case again => exact Scan.exists_ofString_intercalate source
  case rounds => exact Scan.round
  case reports =>
    intro σ α R m
    exact R.parse_eq_invalidToken_iff

/-- A name that begins like the keyword, a blank of three bytes, the keyword before an arrow, a
comment with its line break, and half an arrow, with which no piece begins. -/
example : Scan.ofString "Boolx\u3000Bool->//é\n-" =
    ⟨[⟨.ident "Boolx", ⟨0, 5⟩⟩, ⟨.bool, ⟨8, 12⟩⟩, ⟨.arrow, ⟨12, 14⟩⟩], some 19⟩ := by
  cbv

end Stlc
