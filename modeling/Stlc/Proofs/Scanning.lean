import Mathlib
import Stlc.Source.Scan

/-!
# What scanning reads

`Scan.Reads cs ts rest` says that the tokens `ts` are read off the text `cs` up to `rest`. The text
that is left is a part of the judgement because pieces are as long as they can be: whether a word
ends depends on what comes after it. Judgements are put together with `Scan.Reads.append`, and
`Scan.Reads.scanFrom` takes a complete one to the scanner.

`IsName` says which texts are names. A token that is read is one if it is an identifier
(`Scan.Reads.isName`).
-/

namespace Stlc

/-! ## Names -/

/-- A letter, digit or underscore, more of those and primes, and not the keyword. -/
def IsName (x : String) : Prop :=
  ∃ c cs, x.toList = c :: cs ∧ isNameStart c ∧ (∀ d ∈ cs, isNameRest d) ∧ x ≠ "Bool"

instance (x : String) : Decidable (IsName x) :=
  match h : x.toList with
  | [] => isFalse fun ⟨_, _, hx, _⟩ => nomatch h.symm.trans hx
  | c :: cs =>
    decidable_of_iff (isNameStart c ∧ cs.all isNameRest ∧ x ≠ "Bool") <| by
      simp only [IsName, h, List.cons.injEq, List.all_eq_true]
      constructor
      · intro hx
        exact ⟨c, cs, ⟨rfl, rfl⟩, hx⟩
      · rintro ⟨_, _, ⟨rfl, rfl⟩, hx⟩
        exact hx

theorem isNameRest_of_isNameStart {c : Char} (h : isNameStart c) : isNameRest c := by
  simp [isNameRest, h]

theorem IsName.isNameRest {x : String} (h : IsName x) : ∀ c ∈ x.toList, isNameRest c := by
  obtain ⟨c, cs, hx, hc, hcs, _⟩ := h
  rw [hx]
  intro d hd
  rcases List.mem_cons.mp hd with rfl | hd
  · exact isNameRest_of_isNameStart hc
  · exact hcs d hd

/-- A prime makes a name of a name. -/
theorem IsName.prime {x : String} (h : IsName x) : IsName (x ++ "'") := by
  obtain ⟨c, cs, hx, hc, hcs, _⟩ := h
  refine ⟨c, cs ++ ['\''], by simp [hx], hc, ?_, ?_⟩
  · intro d hd
    rcases List.mem_append.mp hd with hd | hd
    · exact hcs d hd
    · obtain rfl := List.mem_singleton.mp hd
      rfl
  · intro hbool
    have hlast := congrArg (fun s => s.toList.getLast?) hbool
    simp at hlast

theorem not_isBlank_of_isNameStart {c : Char} (h : isNameStart c) : isBlank c = false := by
  simp only [isNameStart, Char.isAlphanum, Char.isAlpha, Char.isUpper, Char.isLower, Char.isDigit,
    Bool.or_eq_true, Bool.and_eq_true, decide_eq_true_eq, beq_iff_eq, UInt32.le_iff_toNat_le] at h
  have hc : (48 ≤ c.toNat ∧ c.toNat ≤ 57) ∨ (65 ≤ c.toNat ∧ c.toNat ≤ 90) ∨
      (97 ≤ c.toNat ∧ c.toNat ≤ 122) ∨ c.toNat = 95 := by
    rcases h with (((h | h) | h) | rfl)
    · exact .inr (.inl h)
    · exact .inr (.inr (.inl h))
    · exact .inl h
    · exact .inr (.inr (.inr rfl))
  simp only [isBlank, Bool.or_eq_false_iff, Bool.and_eq_false_iff, decide_eq_false_iff_not,
    beq_eq_false_iff_ne]
  omega

/-! ## The pieces -/

/-- What may follow a word without being a part of it. -/
def EndsWord (rest : List Char) : Prop := ∀ c cs, rest = c :: cs → isNameRest c = false

theorem endsWord_nil : EndsWord [] := fun _ _ h => nomatch h

theorem endsWord_cons {c : Char} {cs : List Char} (h : isNameRest c = false) :
    EndsWord (c :: cs) := by
  rintro d ds heq
  cases heq
  exact h

namespace Piece

theorem front_of_isNameStart {c : Char} {cs : List Char} (h : isNameStart c) :
    front (c :: cs) = some ⟨some (word (c :: cs.takeWhile isNameRest)),
      c :: cs.takeWhile isNameRest, cs.dropWhile isNameRest⟩ := by
  have hblank := not_isBlank_of_isNameStart h
  unfold front
  split <;> simp_all [isNameStart, Char.isAlphanum, Char.isAlpha, Char.isUpper, Char.isLower,
    Char.isDigit]

/-- A word is cut off where it ends. -/
theorem front_word_append {c : Char} {cs rest : List Char} (hc : isNameStart c)
    (hcs : ∀ d ∈ cs, isNameRest d) (hrest : EndsWord rest) :
    front (c :: cs ++ rest) = some ⟨some (word (c :: cs)), c :: cs, rest⟩ := by
  have htake : rest.takeWhile isNameRest = [] := by
    cases rest with
    | nil => rfl
    | cons d ds => simp [hrest d ds rfl]
  have hdrop : rest.dropWhile isNameRest = rest := by
    cases rest with
    | nil => rfl
    | cons d ds => simp [hrest d ds rfl]
  rw [List.cons_append, front_of_isNameStart hc, List.takeWhile_append_of_pos hcs,
    List.dropWhile_append_of_pos hcs, htake, hdrop, List.append_nil]

theorem front_of_isBlank {c : Char} {cs : List Char} (h : isBlank c) :
    front (c :: cs) = some ⟨none, c :: cs.takeWhile isBlank, cs.dropWhile isBlank⟩ := by
  unfold front
  split
  case h_1 heq => cases heq
  case h_9 heq =>
    cases heq
    rw [if_pos h]
  all_goals
    next heq =>
      cases heq
      exact absurd h (by decide)

theorem word_of_ne_bool {x : String} (h : x ≠ "Bool") : word x.toList = .ident x := by
  have hbool : x.toList ≠ ['B', 'o', 'o', 'l'] := by
    intro heq
    exact h (String.toList_inj.mp heq)
  rw [word, if_neg hbool, String.ofList_toList]

theorem not_mem_cons_takeWhile {q : Char → Bool} {c d : Char} {cs : List Char} (hc : q c)
    (hd : q d = false) : d ∉ c :: cs.takeWhile q := by
  intro hmem
  rcases List.mem_cons.mp hmem with rfl | hmem
  · rw [hc] at hd
    cases hd
  · rw [List.all_eq_true.mp List.all_takeWhile d hmem] at hd
    cases hd

/-- Only a comment has a character in it that begins no token. -/
theorem hash_not_mem {cs : List Char} {p : Piece} (h : front cs = some p)
    (hslash : '/' ∉ p.text) : '#' ∉ p.text := by
  unfold front at h
  split at h
  case h_1 => cases h
  case h_8 =>
    cases h
    simp at hslash
  case h_9 =>
    split at h
    · next hc =>
        cases h
        exact not_mem_cons_takeWhile hc rfl
    · split at h
      · next hc =>
          cases h
          exact not_mem_cons_takeWhile (isNameRest_of_isNameStart hc) rfl
      · cases h
  all_goals
    cases h
    simp

/-- An identifier that is cut off is a name. -/
theorem isName_of_front {cs text rest : List Char} {x : String}
    (h : front cs = some ⟨some (.ident x), text, rest⟩) : IsName x := by
  unfold front at h
  split at h
  case h_9 c cs _ _ _ _ _ _ _ =>
    split at h
    · cases h
    · split at h
      · next hc =>
          simp only [Option.some.injEq, mk.injEq, word] at h
          split at h
          · cases h.1
          · next hbool =>
              cases h.1
              refine ⟨c, cs.takeWhile isNameRest, String.toList_ofList, hc, ?_, ?_⟩
              · exact List.all_eq_true.mp List.all_takeWhile
              · intro heq
                apply hbool
                rw [← String.toList_ofList (l := c :: _), heq]
                rfl
      · cases h
  all_goals cases h

end Piece

namespace Scan

/-! ## Reading tokens off a text -/

/-- The scanner goes on behind the piece that it cuts off. -/
theorem scanFrom_of_front {pos : Nat} {cs : List Char} {p : Piece} (h : Piece.front cs = some p) :
    scanFrom pos cs =
      match p.token? with
      | none => scanFrom (pos + byteLength p.text) p.rest
      | some t =>
        ⟨⟨t, ⟨pos, pos + byteLength p.text⟩⟩ ::
            (scanFrom (pos + byteLength p.text) p.rest).lexemes,
          (scanFrom (pos + byteLength p.text) p.rest).stuckAt?⟩ := by
  have hne : cs ≠ [] := by
    rintro rfl
    cases h
  rw [scanFrom, if_neg hne]
  split
  · next hnone =>
      rw [h] at hnone
      cases hnone
  · next q hq =>
      rw [h] at hq
      cases hq
      rfl

/-- The tokens `ts` are read off a text, and `rest` is left of it. -/
inductive Reads : List Char → List Token → List Char → Prop where
  | done {cs} : Reads cs [] cs
  | skip {cs p ts rest} : Piece.front cs = some p → p.token? = none → Reads p.rest ts rest →
      Reads cs ts rest
  | token {cs p t ts rest} : Piece.front cs = some p → p.token? = some t → Reads p.rest ts rest →
      Reads cs (t :: ts) rest

namespace Reads

theorem append {cs ds rest : List Char} {ts us : List Token} (h : Reads cs ts ds)
    (h' : Reads ds us rest) : Reads cs (ts ++ us) rest := by
  induction h with
  | done => exact h'
  | skip hp ht _ ih => exact .skip hp ht (ih h')
  | token hp ht _ ih => exact .token hp ht (ih h')

theorem lparen {cs rest : List Char} {ts : List Token} (h : Reads cs ts rest) :
    Reads ('(' :: cs) (.lparen :: ts) rest := .token rfl rfl h

theorem rparen {cs rest : List Char} {ts : List Token} (h : Reads cs ts rest) :
    Reads (')' :: cs) (.rparen :: ts) rest := .token rfl rfl h

theorem arrow {cs rest : List Char} {ts : List Token} (h : Reads cs ts rest) :
    Reads ('-' :: '>' :: cs) (.arrow :: ts) rest := .token rfl rfl h

theorem dot {cs rest : List Char} {ts : List Token} (h : Reads cs ts rest) :
    Reads ('.' :: cs) (.dot :: ts) rest := .token rfl rfl h

theorem colon {cs rest : List Char} {ts : List Token} (h : Reads cs ts rest) :
    Reads (':' :: cs) (.colon :: ts) rest := .token rfl rfl h

theorem lambda {cs rest : List Char} {ts : List Token} (h : Reads cs ts rest) :
    Reads ('\\' :: cs) (.lambda :: ts) rest := .token rfl rfl h

theorem bool {rest : List Char} (h : EndsWord rest) :
    Reads ("Bool".toList ++ rest) [.bool] rest :=
  .token (@Piece.front_word_append 'B' ['o', 'o', 'l'] rest rfl (List.all_eq_true.mp rfl) h) rfl
    .done

theorem ident {x : String} {rest : List Char} (hx : IsName x) (h : EndsWord rest) :
    Reads (x.toList ++ rest) [.ident x] rest := by
  obtain ⟨c, cs, hcs, hc, hall, hne⟩ := hx
  have hword := Piece.word_of_ne_bool hne
  rw [hcs] at hword ⊢
  exact .token (Piece.front_word_append hc hall h) (congrArg some hword) .done

/-- Where a token follows, the blanks before it can be left out. -/
theorem dropWhile_isBlank {cs rest : List Char} {ts : List Token} (h : Reads cs ts rest)
    (hne : ts ≠ []) : Reads (cs.dropWhile isBlank) ts rest := by
  cases cs with
  | nil => exact h
  | cons c cs =>
      by_cases hc : isBlank c
      · have hfront : Piece.front (c :: cs) =
            some ⟨none, c :: cs.takeWhile isBlank, cs.dropWhile isBlank⟩ :=
          Piece.front_of_isBlank hc
        rw [List.dropWhile_cons_of_pos hc]
        -- All of the blanks are one piece, so a reading that goes on has skipped all of them.
        cases h with
        | done => exact absurd rfl hne
        | skip hp _ h =>
            rw [hfront] at hp
            cases hp
            exact h
        | token hp ht _ =>
            rw [hfront] at hp
            cases hp
            cases ht
      · rwa [List.dropWhile_cons_of_neg hc]

theorem blank {cs rest : List Char} {ts : List Token} (h : Reads cs ts rest) (hne : ts ≠ []) :
    Reads (' ' :: cs) ts rest :=
  .skip (Piece.front_of_isBlank rfl) rfl (h.dropWhile_isBlank hne)

/-! ## Readings and the scanner -/

/-- A complete reading is what the scanner finds. -/
theorem scanFrom {cs : List Char} {ts : List Token} (h : Reads cs ts []) (pos : Nat) :
    ∃ ls, Scan.scanFrom pos cs = ⟨ls, none⟩ ∧ ls.map Lexeme.token = ts := by
  generalize hrest : ([] : List Char) = rest at h
  induction h generalizing pos with
  | done =>
      subst hrest
      refine ⟨[], ?_, rfl⟩
      rw [Scan.scanFrom, if_pos rfl]
  | @skip cs p ts rest hp ht _ ih =>
      obtain ⟨ls, hls, hmap⟩ := ih (pos + byteLength p.text) hrest
      refine ⟨ls, ?_, hmap⟩
      rw [scanFrom_of_front hp, ht]
      exact hls
  | @token cs p t ts rest hp ht _ ih =>
      obtain ⟨ls, hls, hmap⟩ := ih (pos + byteLength p.text) hrest
      refine ⟨⟨t, ⟨pos, pos + byteLength p.text⟩⟩ :: ls, ?_, ?_⟩
      · rw [scanFrom_of_front hp, ht, hls]
      · rw [List.map_cons, hmap]

end Reads

/-- What the scanner finds up to the end of a text is a complete reading. -/
theorem reads_of_scanFrom {pos : Nat} {cs : List Char} {ls : List Lexeme}
    (h : scanFrom pos cs = ⟨ls, none⟩) : Reads cs (ls.map Lexeme.token) [] := by
  fun_induction scanFrom pos cs generalizing ls with
  | case1 =>
      cases h
      exact .done
  | case2 => cases h
  | case3 pos cs hne p hp stop later ht =>
      rename_i ih
      exact .skip hp ht (ih h)
  | case4 pos cs hne p hp stop later t ht =>
      rename_i ih
      simp only [Scan.mk.injEq] at h
      obtain ⟨rfl, hstuck⟩ := h
      have hlater : later = ⟨later.lexemes, none⟩ := congrArg (Scan.mk later.lexemes) hstuck
      exact .token hp ht (ih hlater)

/-- Every identifier that is read is a name. -/
theorem Reads.isName {cs rest : List Char} {ts : List Token} (h : Reads cs ts rest) {x : String}
    (hx : .ident x ∈ ts) : IsName x := by
  induction h with
  | done => cases hx
  | skip _ _ _ ih => exact ih hx
  | @token cs p t ts rest hp ht _ ih =>
      rcases List.mem_cons.mp hx with rfl | hx
      · obtain ⟨t?, text, left⟩ := p
        cases ht
        exact Piece.isName_of_front hp
      · exact ih hx

/-- A text without slashes has no comments to hide what begins no token. -/
theorem Reads.hash_not_mem {cs : List Char} {ts : List Token} (h : Reads cs ts [])
    (hslash : '/' ∉ cs) : '#' ∉ cs := by
  generalize hrest : ([] : List Char) = rest at h
  induction h with
  | done => simp [← hrest]
  | skip hp _ _ ih =>
      rw [← Piece.front_append hp, List.mem_append, not_or] at hslash ⊢
      exact ⟨Piece.hash_not_mem hp hslash.1, ih hslash.2 hrest⟩
  | token hp _ _ ih =>
      rw [← Piece.front_append hp, List.mem_append, not_or] at hslash ⊢
      exact ⟨Piece.hash_not_mem hp hslash.1, ih hslash.2 hrest⟩

end Scan

end Stlc
