import Stlc.Proofs.Resolution
import Stlc.Term.Word

/-!
# Looking up from the inside

Indices are words, and the entries of a stack are listed as they were pushed, with the innermost one
at the end. To look up an index is to count back from that end (`Stack.lookUp?`), in arithmetic of
words that may run out of range at either end; to search is to go through the list backwards and to
count (`Stack.search?`). Both are the look-ups that stacks have, as long as there are fewer entries
than words (`Stack.lookUp?_eq`, `Stack.search?_eq`).

For what was there, a push is one step further out. Contexts are extended again and again, also
those that others were made of (`Context.extendAll`), and a context that is known stays what it is
(`Context.getElem?_extendAll`).

The main statement is `look_ups_count_from_inside`.
-/

namespace Stlc

/-! ## Words -/

def checkedSub (a b : UInt64) : Option UInt64 := if b ≤ a then some (a - b) else none

theorem checkedSub_eq_some_iff {a b c : UInt64} :
    checkedSub a b = some c ↔ c.toNat + b.toNat = a.toNat := by
  rw [checkedSub, Option.ite_none_right_eq_some, Option.some_inj, ← UInt64.toNat_inj,
    UInt64.le_iff_toNat_le]
  constructor
  · rintro ⟨hle, hdiff⟩
    rw [UInt64.toNat_sub_of_le _ _ (UInt64.le_iff_toNat_le.mpr hle)] at hdiff
    omega
  · intro hsum
    have hle : b.toNat ≤ a.toNat := by omega
    rw [UInt64.toNat_sub_of_le _ _ (UInt64.le_iff_toNat_le.mpr hle)]
    exact ⟨hle, by omega⟩

/-- Counts, from `n`, the entries in front of the first one that satisfies `p`. -/
def countUntil {α : Type} (p : α → Bool) (n : UInt64) : List α → Option UInt64
  | [] => none
  | x :: xs => if p x then some n else countUntil p (n + 1) xs

theorem countUntil_eq {α : Type} (p : α → Bool) (n : UInt64) (xs : List α) :
    countUntil p n xs = (xs.findIdx? p).map (n + .ofNat ·) := by
  induction xs generalizing n with
  | nil => rfl
  | cons x xs ih =>
      rw [countUntil, List.findIdx?_cons, ih]
      split
      · simp
      · rw [Option.map_map]
        congr 1
        funext i
        show n + 1 + .ofNat i = n + .ofNat (i + 1)
        rw [UInt64.ofNat_add, UInt64.add_assoc, UInt64.add_comm 1]
        rfl

/-! ## Stacks -/

namespace Stack

variable {α : Type} {s : Stack α}

/-- Looks up an index: the entries are in the order of pushing, and the place in that list is
counted back from their number. -/
def lookUp? (s : Stack α) (i : UInt64) : Option α := do
  let count ← checkedAdd i 1
  let position ← checkedSub (.ofNat s.toList.length) count
  s.toList[position.toNat]?

/-- Searches for an entry that satisfies `p`, from the one that was pushed last. -/
def search? (s : Stack α) (p : α → Bool) : Option UInt64 := countUntil p 0 s.toList.reverse

theorem lookUp?_eq (hs : s.size < indexLimit) (i : UInt64) : s.lookUp? i = s.get? i.toNat := by
  have hword : ∀ n < indexLimit, (UInt64.ofNat n).toNat = n := fun _ => UInt64.toNat_ofNat_of_lt'
  ext x
  -- Both steps stay in range for the indices below the size, and for those alone.
  simp only [lookUp?, Option.bind_eq_bind, Option.bind_eq_some_iff, checkedAdd_eq_some_iff,
    checkedSub_eq_some_iff, length_toList, hword _ hs, UInt64.toNat_one]
  constructor
  · rintro ⟨count, hcount, position, hposition, hx⟩
    have hi : i.toNat < s.size := by omega
    have hplace : s.size - 1 - i.toNat = position.toNat := by omega
    rw [get?_eq_toList s hi, hplace, hx]
  · intro hx
    have hi : i.toNat < s.size := (get?_isSome_iff s _).mp (hx ▸ rfl)
    refine ⟨.ofNat (i.toNat + 1), ?_, .ofNat (s.size - 1 - i.toNat), ?_, ?_⟩
    · rw [hword _ (by omega)]
    · rw [hword _ (by omega), hword _ (by omega)]
      omega
    · rw [hword _ (by omega), ← get?_eq_toList s hi, hx]

theorem search?_eq (hs : s.size < indexLimit) (p : α → Bool) :
    (s.search? p).map UInt64.toNat = s.findIdx? p := by
  rw [search?, toList, List.reverse_reverse, countUntil_eq, findIdx?]
  cases hi : s.entries.findIdx? p with
  | none => rfl
  | some i =>
      have hlt : i < indexLimit := Nat.lt_trans (lt_size_of_findIdx? hi) hs
      simp [UInt64.toNat_ofNat_of_lt' hlt]

theorem search?_eq_some_iff (hs : s.size < indexLimit) {p : α → Bool} {i : UInt64} :
    s.search? p = some i ↔ s.findIdx? p = some i.toNat := by
  rw [← search?_eq hs, Option.map_eq_some_iff]
  constructor
  · intro h
    exact ⟨i, h, rfl⟩
  · rintro ⟨j, hj, hji⟩
    rw [hj, UInt64.toNat_inj.mp hji]

/-- A search finds the innermost entry that satisfies `p`. -/
theorem findIdx?_eq_some_iff_get? {p : α → Bool} {i : Nat} :
    s.findIdx? p = some i ↔
      (∃ x, s.get? i = some x ∧ p x) ∧ ∀ j < i, ∀ x, s.get? j = some x → ¬ p x := by
  rw [findIdx?, List.findIdx?_eq_some_iff_getElem]
  simp only [get?, List.getElem?_eq_some_iff]
  constructor
  · rintro ⟨hi, hp, hinner⟩
    refine ⟨⟨_, ⟨hi, rfl⟩, hp⟩, ?_⟩
    rintro j hj _ ⟨_, rfl⟩
    exact hinner j hj
  · rintro ⟨⟨_, ⟨hi, rfl⟩, hp⟩, hinner⟩
    exact ⟨hi, hp, fun j hj => hinner j hj _ ⟨_, rfl⟩⟩

theorem search?_eq_some_iff_lookUp? (hs : s.size < indexLimit) {p : α → Bool} {i : UInt64} :
    s.search? p = some i ↔
      (∃ x, s.lookUp? i = some x ∧ p x) ∧ ∀ j < i, ∀ x, s.lookUp? j = some x → ¬ p x := by
  rw [search?_eq_some_iff hs, findIdx?_eq_some_iff_get?]
  simp only [lookUp?_eq hs]
  refine and_congr_right fun _ => ⟨?_, ?_⟩
  · intro hinner j hj
    exact hinner j.toNat (UInt64.lt_iff_toNat_lt.mp hj)
  · intro hinner j hj
    have hword : (UInt64.ofNat j).toNat = j :=
      UInt64.toNat_ofNat_of_lt' (Nat.lt_trans hj i.toNat_lt)
    have hlt : UInt64.ofNat j < i := UInt64.lt_iff_toNat_lt.mpr (hword.symm ▸ hj)
    exact hword ▸ hinner (.ofNat j) hlt

theorem lookUp?_eq_some_iff (hs : s.size < indexLimit) {i : UInt64} {x : α} :
    s.lookUp? i = some x ↔ i.toNat < s.size ∧ s.toList[s.size - 1 - i.toNat]? = some x := by
  rw [lookUp?_eq hs]
  constructor
  · intro hx
    have hi : i.toNat < s.size := (get?_isSome_iff s _).mp (hx ▸ rfl)
    exact ⟨hi, by rw [← get?_eq_toList s hi, hx]⟩
  · rintro ⟨hi, hx⟩
    rw [get?_eq_toList s hi, hx]

theorem findIdx?_eq_none_iff_toList {p : α → Bool} :
    s.findIdx? p = none ↔ ∀ x ∈ s.toList, ¬ p x := by
  simp [findIdx?, toList]

end Stack

/-! ## Contexts -/

namespace Context

/-- A binding to be pushed onto a context, which is given by its number. -/
structure Extension where
  context : Nat
  binding : Binding

/-- The contexts that are known after an extension: those that were, and the extended one. -/
def extend (known : List Context) (e : Extension) : List Context :=
  match known[e.context]? with
  | some Γ => known ++ [Γ.push e.binding]
  | none => known

def extendAll (known : List Context) (es : List Extension) : List Context := es.foldl extend known

theorem extend_of_getElem? {known : List Context} {e : Extension} {Γ : Context}
    (h : known[e.context]? = some Γ) : extend known e = known ++ [Γ.push e.binding] := by
  rw [extend, h]

theorem getElem?_extend {known : List Context} {n : Nat} {Γ : Context} (h : known[n]? = some Γ)
    (e : Extension) : (extend known e)[n]? = some Γ := by
  unfold extend
  split
  · rw [List.getElem?_append_left (List.getElem?_eq_some_iff.mp h).1, h]
  · exact h

/-- A context that is known stays so, under its number. -/
theorem getElem?_extendAll {known : List Context} {n : Nat} {Γ : Context}
    (h : known[n]? = some Γ) (es : List Extension) : (extendAll known es)[n]? = some Γ := by
  induction es generalizing known with
  | nil => exact h
  | cons e es ih => exact ih (getElem?_extend h e)

end Context

/-- Look-ups count from the inside. On a stack of fewer than `indexLimit` entries `lookUp?` and
`search?`, which compute on words, are `get?` and `findIdx?`: an index below the size gives the
entry that many places before the last, and a search gives the least index of an entry with `p`,
or none.

In `Context.extendAll` a context that is known stays as it was, and `Context.extend` gives one
that has the new binding at zero and the entries of the old one an index further out, by index and
by name. -/
theorem look_ups_count_from_inside :
    (∀ (α : Type) (s : Stack α), s.size < indexLimit →
      (∀ i : UInt64, s.lookUp? i = s.get? i.toNat ∧ ((s.lookUp? i).isSome ↔ i.toNat < s.size) ∧
        ∀ x, s.lookUp? i = some x ↔ i.toNat < s.size ∧ s.toList[s.size - 1 - i.toNat]? = some x) ∧
      ∀ p : α → Bool, (s.search? p).map UInt64.toNat = s.findIdx? p ∧
        (∀ i, s.search? p = some i ↔ (∃ x, s.lookUp? i = some x ∧ p x) ∧
          ∀ j < i, ∀ x, s.lookUp? j = some x → ¬ p x) ∧
        (s.search? p = none ↔ ∀ x ∈ s.toList, ¬ p x)) ∧
    ∀ (known : List Context) (before after : List Context.Extension) (e : Context.Extension) Γ,
      (Context.extendAll known before)[e.context]? = some Γ →
      let earlier := Context.extendAll known before
      let later := Context.extendAll known (before ++ e :: after)
      (∀ (n : Nat) Δ, earlier[n]? = some Δ → later[n]? = some Δ) ∧
      ∃ Δ : Context, later[earlier.length]? = some Δ ∧ Δ.toList = Γ.toList ++ [e.binding] ∧
        Δ.get? 0 = some e.binding ∧ (∀ i, Δ.get? (i + 1) = Γ.get? i) ∧
        ∀ x, Δ.indexOf? x =
          if e.binding.name = x then some 0 else (Γ.indexOf? x).map (· + 1) := by
  refine ⟨fun α s hs => ⟨fun i => ?look, fun p => ?find⟩, ?extensions⟩
  case look =>
    refine ⟨Stack.lookUp?_eq hs i, ?_, fun x => Stack.lookUp?_eq_some_iff hs⟩
    rw [Stack.lookUp?_eq hs, Stack.get?_isSome_iff]
  case find =>
    refine ⟨Stack.search?_eq hs p, fun i => Stack.search?_eq_some_iff_lookUp? hs, ?_⟩
    rw [← Stack.findIdx?_eq_none_iff_toList, ← Stack.search?_eq hs, Option.map_eq_none_iff]
  case extensions =>
    intro known before after e Γ hΓ earlier later
    have hlater : later = Context.extendAll (Context.extend earlier e) after := List.foldl_append
    have hnew : (Context.extend earlier e)[earlier.length]? = some (Γ.push e.binding) := by
      rw [Context.extend_of_getElem? hΓ, List.getElem?_concat_length]
    rw [hlater]
    refine ⟨fun n Δ hn => ?_, Γ.push e.binding, ?_, Γ.toList_push e.binding, rfl, fun i => rfl,
      fun x => ?_⟩
    · exact Context.getElem?_extendAll (Context.getElem?_extend hn e) after
    · exact Context.getElem?_extendAll hnew after
    · rw [Context.indexOf?, Stack.findIdx?_push]
      simp only [beq_iff_eq]
      rfl

/-- The stack has an entry twice, and fewer entries than the last index there is. A context that is
extended is there unchanged for another extension. -/
theorem look_ups_count_from_inside_repeated :
    let s : Stack String := .ofList ["a", "b", "a", "c"]
    let Γ : Context := .ofList [.typed "x" (.bool .nowhere)]
    let later := Context.extendAll [Γ] [⟨0, .untyped "x"⟩, ⟨0, .untyped "y"⟩]
    (s.lookUp? 3 = some "a" ∧ s.lookUp? 18446744073709551615 = none ∧
      s.search? (· == "a") = some 1) ∧
    later[0]? = some Γ ∧
    ∃ Δ : Context, later[1]? = some Δ ∧ Δ.indexOf? "x" = some 0 ∧ Δ.get? 1 = Γ.get? 0 := by
  intro s Γ later
  obtain ⟨hlook, hsearch⟩ := look_ups_count_from_inside.1 String s (by decide)
  obtain ⟨hkept, Δ, hΔ, _, _, hsucc, hfind⟩ := look_ups_count_from_inside.2 [Γ] []
    [⟨0, .untyped "y"⟩] ⟨0, .untyped "x"⟩ Γ rfl
  have hthird : s.lookUp? 1 = some "a" := ((hlook 1).2.2 "a").mpr (by decide)
  have hlast : s.lookUp? 0 = some "c" := ((hlook 0).2.2 "c").mpr (by decide)
  refine ⟨⟨((hlook 3).2.2 "a").mpr (by decide), ?_, ?_⟩, hkept 0 Γ rfl, Δ, hΔ, hfind "x", hsucc 0⟩
  · exact Option.not_isSome_iff_eq_none.mp (mt (hlook _).2.1.mp (by decide))
  · refine ((hsearch (· == "a")).2.1 1).mpr ⟨⟨"a", hthird, rfl⟩, fun j hj x hx => ?_⟩
    obtain rfl : j = 0 := UInt64.toNat_inj.mp (Nat.lt_one_iff.mp (UInt64.lt_iff_toNat_lt.mp hj))
    obtain rfl : "c" = x := Option.some.inj (hlast.symm.trans hx)
    decide

end Stlc
