/-!
# Stacks addressed from the top

A `Stack` grows at its inner end, and its entries are addressed from there: index `0` is the entry
pushed last, and pushing one more entry moves every other one up by one. Binders, the names in
scope and the bindings of a context all use this one convention.

`get?_push_zero`, `get?_push_succ` and `findIdx?_push` say how the two look-ups see a push;
`get?_eq_toList` relates them to the list of the entries in the order in which they were pushed.
-/

namespace Stlc

/-- A stack, its entries listed innermost first. -/
structure Stack (α : Type) where
  entries : List α
deriving DecidableEq

namespace Stack

variable {α β : Type}

def empty : Stack α := ⟨[]⟩

def push (x : α) (s : Stack α) : Stack α := ⟨x :: s.entries⟩

/-- The stack made by pushing the entries of a list one after the other: outermost first. -/
def ofList (xs : List α) : Stack α := ⟨xs.reverse⟩

/-- The entries in the order in which they were pushed: outermost first. -/
def toList (s : Stack α) : List α := s.entries.reverse

def size (s : Stack α) : Nat := s.entries.length

/-- The entry `i` steps out from the innermost one. -/
def get? (s : Stack α) (i : Nat) : Option α := s.entries[i]?

/-- The index of the innermost entry that satisfies `p`. -/
def findIdx? (s : Stack α) (p : α → Bool) : Option Nat := s.entries.findIdx? p

def map (f : α → β) (s : Stack α) : Stack β := ⟨s.entries.map f⟩

/-- Every stack is made by pushing. -/
theorem pushInduction {motive : Stack α → Prop} (empty : motive empty)
    (push : ∀ x s, motive s → motive (s.push x)) : ∀ s, motive s
  | ⟨[]⟩ => empty
  | ⟨x :: xs⟩ => push x ⟨xs⟩ (pushInduction empty push ⟨xs⟩)

/-! ## How the look-ups see a push -/

@[simp] theorem get?_empty (i : Nat) : (empty : Stack α).get? i = none := rfl

@[simp] theorem get?_push_zero (x : α) (s : Stack α) : (s.push x).get? 0 = some x := rfl

@[simp] theorem get?_push_succ (x : α) (s : Stack α) (i : Nat) :
    (s.push x).get? (i + 1) = s.get? i := rfl

@[simp] theorem findIdx?_empty (p : α → Bool) : (empty : Stack α).findIdx? p = none := rfl

theorem findIdx?_push (x : α) (s : Stack α) (p : α → Bool) :
    (s.push x).findIdx? p = if p x then some 0 else (s.findIdx? p).map (· + 1) := by
  simp [findIdx?, push, List.findIdx?_cons]

/-- A search fails for what is not there, and only for that. -/
theorem findIdx?_eq_none_iff [BEq α] [LawfulBEq α] {s : Stack α} {x : α} :
    s.findIdx? (· == x) = none ↔ x ∉ s.entries := by
  rw [findIdx?, List.findIdx?_eq_none_iff]
  constructor
  · intro h hx
    exact absurd (h x hx) (by simp)
  · intro h y hy
    exact beq_false_of_ne fun hyx => h (hyx ▸ hy)

@[simp] theorem size_empty : (empty : Stack α).size = 0 := rfl

@[simp] theorem size_push (x : α) (s : Stack α) : (s.push x).size = s.size + 1 := rfl

/-! ## Mapping -/

@[simp] theorem map_push (f : α → β) (x : α) (s : Stack α) :
    (s.push x).map f = (s.map f).push (f x) := rfl

@[simp] theorem size_map (f : α → β) (s : Stack α) : (s.map f).size = s.size := by
  simp [size, map]

@[simp] theorem get?_map (f : α → β) (s : Stack α) (i : Nat) :
    (s.map f).get? i = (s.get? i).map f := by
  simp [get?, map]

/-! ## The entries in the order of pushing -/

@[simp] theorem toList_ofList (xs : List α) : (ofList xs).toList = xs := by
  simp [toList, ofList]

@[simp] theorem toList_push (x : α) (s : Stack α) : (s.push x).toList = s.toList ++ [x] := by
  simp [toList, push]

@[simp] theorem length_toList (s : Stack α) : s.toList.length = s.size := by
  simp [toList, size]

/-- Index `i` names the entry that is `i` places before the last one pushed. -/
theorem get?_eq_toList (s : Stack α) {i : Nat} (h : i < s.size) :
    s.get? i = s.toList[s.size - 1 - i]? := by
  unfold size at h
  rw [toList, List.getElem?_reverse (by unfold size; omega), get?]
  congr 1
  unfold size
  omega

/-- An index names an entry exactly when it is below the size. -/
theorem get?_isSome_iff (s : Stack α) (i : Nat) : (s.get? i).isSome ↔ i < s.size := by
  simp [get?, size]

end Stack

end Stlc
