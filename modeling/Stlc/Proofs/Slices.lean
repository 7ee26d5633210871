import Stlc.Proofs.LongestMatch
import Stlc.Proofs.Reading

/-!
# Slices of a source

A part of a source that begins and ends with a token divides, by itself, into the tokens that it
contributes to the whole (`Lexes.slice`), each of them where it was, counted from the beginning of
the part (`Lexes.back`). What comes after a piece is of no account for that: a piece that is the
longest match in a text is so in every text that stops later than the piece does
(`Piece.IsLongest.shorten`).

For the same reason a text that is not divided to its end is so up to a point
(`Scan.exists_lexes`), which makes every offset that the scanner reports one between two characters.
-/

namespace Stlc

/-! ## Offsets in a text -/

/-- The offset is one between two characters of the text, or at one of its ends. -/
def IsBoundary (source : String) (n : Nat) : Prop :=
  ∃ before after, source.toList = before ++ after ∧ n = byteLength before

/-- The span is that of a part of the text, which may be empty. -/
structure Span.IsIn (s : Span) (source : String) : Prop where
  ordered : s.start ≤ s.stop
  stop_le : s.stop ≤ byteLength source.toList
  start_isBoundary : IsBoundary source s.start
  stop_isBoundary : IsBoundary source s.stop

theorem IsBoundary.le {source : String} {n : Nat} (h : IsBoundary source n) :
    n ≤ byteLength source.toList := by
  obtain ⟨before, after, htext, rfl⟩ := h
  rw [htext, byteLength_append]
  exact Nat.le_add_right _ _

theorem IsBoundary.zero (source : String) : IsBoundary source 0 := ⟨[], source.toList, rfl, rfl⟩

theorem IsBoundary.point_isIn {source : String} {n : Nat} (h : IsBoundary source n) :
    (Span.point n).IsIn source :=
  ⟨Nat.le_refl n, h.le, h, h⟩

theorem Span.Spells.isIn {s : Span} {source text : String} (h : s.Spells source text) :
    s.IsIn source := by
  obtain ⟨before, after, htext, rfl⟩ := h
  have hstop : IsBoundary source (byteLength before + byteLength text.toList) :=
    ⟨before ++ text.toList, after, by rw [htext, List.append_assoc], (byteLength_append _ _).symm⟩
  exact ⟨Nat.le_add_right _ _, hstop.le, ⟨before, _, htext, rfl⟩, hstop⟩

/-! ## Shorter texts -/

/-- A longest match stays one when the text behind it is cut. -/
theorem Piece.IsLongest.shorten {p : Piece} {cs rest more : List Char} (h : p.IsLongest cs)
    (hrest : p.rest = rest ++ more) :
    (⟨p.token?, p.text, rest⟩ : Piece).IsLongest (p.text ++ rest) where
  append := rfl
  ne_nil := h.ne_nil
  isMatch := h.isMatch
  longest := by
    intro t? text rest' happend hmatch
    refine h.longest t? text (rest' ++ more) ?_ hmatch
    rw [← List.append_assoc, happend, List.append_assoc, ← hrest, h.append]
  fixed_first := h.fixed_first

theorem Piece.IsLongest.eq_append {p : Piece} {cs before after : List Char} (h : p.IsLongest cs)
    (hrest : p.rest = before ++ after) : cs = p.text ++ before ++ after := by
  rw [List.append_assoc, ← hrest, h.append]

namespace Lexes

theorem skip_shorten {n : Nat} {cs rest more : List Char} {ls : List Lexeme} {p : Piece}
    (hp : p.IsLongest cs) (ht : p.token? = none) (hrest : p.rest = rest ++ more)
    (h : Lexes (n + byteLength p.text) rest ls) : Lexes n (p.text ++ rest) ls :=
  .skip (hp.shorten hrest) ht h

theorem token_shorten {n : Nat} {cs rest more : List Char} {t : Token} {ls : List Lexeme}
    {p : Piece} (hp : p.IsLongest cs) (ht : p.token? = some t) (hrest : p.rest = rest ++ more)
    (h : Lexes (n + byteLength p.text) rest ls) :
    Lexes n (p.text ++ rest) (⟨t, ⟨n, n + byteLength p.text⟩⟩ :: ls) :=
  Lexes.token (p := ⟨p.token?, p.text, rest⟩) (hp.shorten hrest) ht h

/-- The pieces in front of a token may be cut off, down to the token itself. -/
theorem drop {n : Nat} {cs : List Char} {ks ms : List Lexeme} (h : Lexes n cs (ks ++ ms))
    (hms : ms ≠ []) : ∃ before rest, cs = before ++ rest ∧
      Lexes (n + byteLength before) rest ms ∧ (spanOf ms).start = n + byteLength before := by
  generalize hls : ks ++ ms = ls at h
  induction h generalizing ks with
  | done => exact absurd (List.append_eq_nil_iff.mp hls).2 hms
  | @skip n cs ls p hp _ _ ih =>
      obtain ⟨before, rest, hrest, hlexes, hstart⟩ := ih hls
      rw [Nat.add_assoc, ← byteLength_append] at hlexes hstart
      exact ⟨p.text ++ before, rest, hp.eq_append hrest, hlexes, hstart⟩
  | @token n cs t ls p hp ht hlater ih =>
      cases ks with
      | nil =>
          obtain rfl : ms = _ := hls
          exact ⟨[], cs, rfl, .token hp ht hlater, rfl⟩
      | cons k ks =>
          obtain ⟨before, rest, hrest, hlexes, hstart⟩ := ih (List.cons.inj hls).2
          rw [Nat.add_assoc, ← byteLength_append] at hlexes hstart
          exact ⟨p.text ++ before, rest, hp.eq_append hrest, hlexes, hstart⟩

/-- The pieces behind a token may be cut off. Those in front of the cut are the longest matches in
what is left of the text, since they were so in all of it. -/
theorem take {n : Nat} {cs : List Char} {ms js : List Lexeme} (h : Lexes n cs (ms ++ js))
    (hms : ms ≠ []) : ∃ text after, cs = text ++ after ∧ Lexes n text ms ∧
      (spanOf ms).stop = n + byteLength text := by
  generalize hls : ms ++ js = ls at h
  induction h generalizing ms with
  | done => exact absurd (List.append_eq_nil_iff.mp hls).1 hms
  | @skip n cs ls p hp ht _ ih =>
      obtain ⟨text, after, hrest, hlexes, hstop⟩ := ih hms hls
      refine ⟨p.text ++ text, after, hp.eq_append hrest, .skip_shorten hp ht hrest hlexes, ?_⟩
      rw [hstop, byteLength_append, Nat.add_assoc]
  | @token n cs t ls p hp ht _ ih =>
      obtain ⟨m, ms, rfl⟩ := List.exists_cons_of_ne_nil hms
      obtain ⟨rfl, htail⟩ := List.cons.inj hls
      by_cases hlast : ms = []
      · -- The text ends with this token.
        subst hlast
        have hrest : p.rest = [] ++ p.rest := rfl
        refine ⟨p.text ++ [], p.rest, hp.eq_append hrest, .token_shorten hp ht hrest .done, ?_⟩
        rw [List.append_nil]
        rfl
      · obtain ⟨text, after, hrest, hlexes, hstop⟩ := ih hlast htail
        refine ⟨p.text ++ text, after, hp.eq_append hrest, .token_shorten hp ht hrest hlexes, ?_⟩
        rw [spanOf_cons hlast, hstop, byteLength_append, Nat.add_assoc]

/-- Tokens that follow one another are those of the part of the text that they span. -/
theorem slice {n : Nat} {cs : List Char} {ls ms : List Lexeme} (h : Lexes n cs ls)
    (hsub : ms <:+: ls) (hms : ms ≠ []) :
    ∃ before text after, cs = before ++ (text ++ after) ∧
      Lexes (n + byteLength before) text ms ∧
      spanOf ms = ⟨n + byteLength before, n + byteLength before + byteLength text⟩ := by
  obtain ⟨ks, js, rfl⟩ := hsub
  rw [List.append_assoc] at h
  obtain ⟨before, rest, rfl, hrest, hstart⟩ := h.drop (List.append_ne_nil_of_left_ne_nil hms js)
  obtain ⟨text, after, rfl, htext, hstop⟩ := hrest.take hms
  refine ⟨before, text, after, rfl, htext, ?_⟩
  obtain ⟨m, ms, rfl⟩ := List.exists_cons_of_ne_nil hms
  rw [← hstop, ← hstart]
  rfl

/-- A token begins where the one before it ends, or later. -/
theorem pairwise {n : Nat} {cs : List Char} {ls : List Lexeme} (h : Lexes n cs ls) :
    ls.Pairwise fun l m => l.span.stop ≤ m.span.start := by
  induction h with
  | done => exact .nil
  | skip _ _ _ ih => exact ih
  | token _ _ hlater ih =>
      refine .cons (fun m hm => ?_) ih
      obtain ⟨before, _, _, hspan⟩ := hlater.exists_append hm
      rw [hspan]
      exact Nat.le_add_right _ _

end Lexes

/-- What is spanned by the first of some tokens ends before what is spanned by the others. -/
theorem stop_le_start_of_pairwise {ks js : List Lexeme}
    (h : (ks ++ js).Pairwise fun l m => l.span.stop ≤ m.span.start) (hks : ks ≠ [])
    (hjs : js ≠ []) : (spanOf ks).stop ≤ (spanOf js).start := by
  obtain ⟨k, ks, rfl⟩ := List.exists_cons_of_ne_nil hks
  obtain ⟨j, js, rfl⟩ := List.exists_cons_of_ne_nil hjs
  exact (List.pairwise_append.mp h).2.2 _ (List.getLast_mem _) j List.mem_cons_self

structure Span.IsWithin (s s' : Span) : Prop where
  start_le : s'.start ≤ s.start
  stop_le : s.stop ≤ s'.stop

/-- Some of the tokens that follow one another span a part of what they all do. -/
theorem Lexes.spanOf_isWithin {n : Nat} {cs : List Char} {ls ks ms : List Lexeme}
    (h : Lexes n cs ls) (hks : ks <:+: ls) (hsub : ms <:+: ks) (hms : ms ≠ []) :
    (spanOf ms).IsWithin (spanOf ks) := by
  have hne : ks ≠ [] := by
    rintro rfl
    exact hms (List.infix_nil.mp hsub)
  obtain ⟨_, text, _, _, htext, hspan⟩ := h.slice hks hne
  obtain ⟨before, part, after, rfl, _, hpart⟩ := htext.slice hsub hms
  rw [hspan, hpart, byteLength_append, byteLength_append]
  constructor
  · exact Nat.le_add_right _ _
  · dsimp only
    omega

/-! ## Moving spans -/

def Span.map (g h : Nat → Nat) (s : Span) : Span := ⟨g s.start, h s.stop⟩

def Lexeme.mapSpan (g h : Nat → Nat) (l : Lexeme) : Lexeme := ⟨l.token, l.span.map g h⟩

theorem spanOf_map (g h : Nat → Nat) {ls : List Lexeme} (hls : ls ≠ []) :
    spanOf (ls.map (Lexeme.mapSpan g h)) = (spanOf ls).map g h := by
  induction ls with
  | nil => exact absurd rfl hls
  | cons l ls ih =>
      by_cases hlast : ls = []
      · subst hlast
        rfl
      · rw [List.map_cons, spanOf_cons (by simpa using hlast), ih hlast, spanOf_cons hlast]
        rfl

/-- Counted from the offset `k` on, every token is `k` nearer to the beginning. -/
theorem Lexes.back {k n : Nat} {cs : List Char} {ls : List Lexeme} (h : Lexes (n + k) cs ls) :
    Lexes n cs (ls.map (Lexeme.mapSpan (· - k) (· - k))) := by
  generalize hm : n + k = m at h
  induction h generalizing n with
  | done => exact .done
  | skip hp ht _ ih => exact .skip hp ht (ih (by omega))
  | @token m cs t ls p hp ht _ ih =>
      have hspan : Span.map (· - k) (· - k) ⟨m, m + byteLength p.text⟩ =
          ⟨n, n + byteLength p.text⟩ := by
        simp only [Span.map, Span.mk.injEq]
        omega
      rw [List.map_cons, Lexeme.mapSpan, hspan]
      exact .token hp ht (ih (by omega))

/-- What is spanned by some tokens is divided, alone, into these tokens, counted from where the
first of them begins. -/
theorem Scan.ofString_slice {source : String} {ls ms : List Lexeme}
    (h : ofString source = ⟨ls, none⟩) (hsub : ms <:+: ls) (hms : ms ≠ []) :
    ∃ text, (spanOf ms).Spells source text ∧ ofString text =
      ⟨ms.map (Lexeme.mapSpan (· - (spanOf ms).start) (· - (spanOf ms).start)), none⟩ := by
  obtain ⟨before, text, after, hsource, hlexes, hspan⟩ := (ofString_eq_iff.mp h).slice hsub hms
  rw [Nat.zero_add] at hspan
  rw [← String.toList_ofList (l := text)] at hsource hlexes hspan
  refine ⟨String.ofList text, ⟨before, after, hsource, hspan⟩, ?_⟩
  rw [hspan]
  exact ofString_eq_iff.mpr hlexes.back

/-! ## Texts that are not divided to their ends -/

/-- The tokens that are found are those of a text that stops where the scanner does. -/
theorem Scan.exists_lexes (n : Nat) (cs : List Char) :
    ∃ before after, cs = before ++ after ∧ Lexes n before (scanFrom n cs).lexemes ∧
      ∀ m, (scanFrom n cs).stuckAt? = some m → m = n + byteLength before := by
  fun_induction scanFrom n cs with
  | case1 n =>
      refine ⟨[], [], rfl, .done, ?_⟩
      intro m hm
      cases hm
  | case2 n cs hne hfront =>
      refine ⟨[], cs, rfl, .done, ?_⟩
      intro m hm
      cases hm
      rfl
  | case3 n cs hne p hp stop later ht =>
      rename_i ih
      obtain ⟨before, after, hrest, hlexes, hstuck⟩ := ih
      have hlongest := Piece.front_eq_some_iff.mp hp
      refine ⟨p.text ++ before, after, hlongest.eq_append hrest,
        .skip_shorten hlongest ht hrest hlexes, fun m hm => ?_⟩
      rw [hstuck m hm, byteLength_append, Nat.add_assoc]
  | case4 n cs hne p hp stop later t ht =>
      rename_i ih
      obtain ⟨before, after, hrest, hlexes, hstuck⟩ := ih
      have hlongest := Piece.front_eq_some_iff.mp hp
      refine ⟨p.text ++ before, after, hlongest.eq_append hrest,
        .token_shorten hlongest ht hrest hlexes, fun m hm => ?_⟩
      rw [hstuck m hm, byteLength_append, Nat.add_assoc]

/-- A token that is found is spelled where it is, whatever comes after it. -/
theorem Scan.spells_of_mem {source : String} {l : Lexeme} (hl : l ∈ (ofString source).lexemes) :
    l.span.Spells source l.token.text := by
  obtain ⟨front, behind, hsource, hlexes, _⟩ := exists_lexes 0 source.toList
  obtain ⟨before, after, hfront, hspan⟩ := hlexes.exists_append hl
  rw [Nat.zero_add] at hspan
  refine ⟨before, after ++ behind, ?_, hspan⟩
  rw [hsource, hfront, List.append_assoc, List.append_assoc]

theorem Scan.isBoundary_of_stuckAt? {source : String} {n : Nat}
    (h : (ofString source).stuckAt? = some n) : IsBoundary source n := by
  obtain ⟨front, behind, hsource, _, hstuck⟩ := exists_lexes 0 source.toList
  refine ⟨front, behind, hsource, ?_⟩
  rw [hstuck n h, Nat.zero_add]

end Stlc
