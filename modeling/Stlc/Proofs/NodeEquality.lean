import Mathlib.Data.List.Forall2
import Stlc.Node

/-!
# Equality of nodes

A node says something itself, its former with a name or an index (`Node.head`), it is made of other
nodes (`Node.parts`), and it may have a span (`Node.span?`). The three determine it
(`Node.ext_iff`).

The equality that is checked looks at the first two, at every depth, and not at the third: two nodes
are the same if their heads are equal and their parts are the same, one by one (`Node.same_iff`).
Forgetting spans changes the third alone (`Node.span?_eraseSpans`), and makes nodes equal that are
the same, and no others (`Node.same_iff_eraseSpans`).

The main statement is `node_equality_blind_to_spans`.
-/

namespace Stlc

namespace Node

/-! ## What a node is made of -/

/-- What a node says, apart from what its parts say. -/
inductive Head where
  | bool
  | arrow
  | untyped (name : String)
  | typed (name : String)
  | exprVar (name : String)
  | exprLam (name : String)
  | exprApp
  | termVar (index : Nat)
  | termLam (name : String)
  | termApp

def Head.kind : Head → Kind
  | bool | arrow => .type
  | untyped _ | typed _ => .binding
  | exprVar _ | exprLam _ | exprApp => .expr
  | termVar _ | termLam _ | termApp => .term

def head : Node → Head
  | type (.bool _) => .bool
  | type (.arrow ..) => .arrow
  | binding (.untyped x) => .untyped x
  | binding (.typed x _) => .typed x
  | expr (.var x _) => .exprVar x
  | expr (.lam x ..) => .exprLam x
  | expr (.app ..) => .exprApp
  | term (.var i _) => .termVar i
  | term (.lam x ..) => .termLam x
  | term (.app ..) => .termApp

/-- The nodes that a node is made of, from the left. -/
def parts : Node → List Node
  | type (.bool _) => []
  | type (.arrow a b _) => [type a, type b]
  | binding (.untyped _) => []
  | binding (.typed _ τ) => [type τ]
  | expr (.var ..) => []
  | expr (.lam _ τ e _) => [type τ, expr e]
  | expr (.app e f _) => [expr e, expr f]
  | term (.var ..) => []
  | term (.lam _ τ t _) => [type τ, term t]
  | term (.app t u _) => [term t, term u]

/-- Where a node was read; bindings do not say. -/
def span? : Node → Option Span
  | type τ => some τ.span
  | binding _ => none
  | expr e => some e.span
  | term t => some t.span

theorem kind_head (n : Node) : n.head.kind = n.kind := by
  rcases n with (_ | _) | (_ | _) | (_ | _ | _) | (_ | _ | _) <;> rfl

/-- The head, the parts and the span make the node. -/
theorem ext_iff {l r : Node} :
    l = r ↔ l.head = r.head ∧ l.parts = r.parts ∧ l.span? = r.span? := by
  constructor
  · rintro rfl
    exact ⟨rfl, rfl, rfl⟩
  · rintro ⟨hhead, hparts, hspan⟩
    rcases l with (_ | _) | (_ | _) | (_ | _ | _) | (_ | _ | _) <;>
      rcases r with (_ | _) | (_ | _) | (_ | _ | _) | (_ | _ | _) <;>
      cases hhead <;> cases hparts <;> cases hspan <;> rfl

/-! ## Forgetting spans -/

@[simp] theorem kind_eraseSpans (n : Node) : n.eraseSpans.kind = n.kind := by
  cases n <;> rfl

@[simp] theorem head_eraseSpans (n : Node) : n.eraseSpans.head = n.head := by
  rcases n with (_ | _) | (_ | _) | (_ | _ | _) | (_ | _ | _) <;> rfl

@[simp] theorem parts_eraseSpans (n : Node) : n.eraseSpans.parts = n.parts.map eraseSpans := by
  rcases n with (_ | _) | (_ | _) | (_ | _ | _) | (_ | _ | _) <;> rfl

@[simp] theorem span?_eraseSpans (n : Node) :
    n.eraseSpans.span? = n.span?.map fun _ => .nowhere := by
  rcases n with (_ | _) | (_ | _) | (_ | _ | _) | (_ | _ | _) <;> rfl

/-! ## Comparing nodes -/

/-- Nodes of one kind that differ in nothing but in where they were read. -/
def Same (l r : Node) : Prop := l.sameAs? r = .ok true

theorem sameAs?_of_kind_ne {l r : Node} (h : l.kind ≠ r.kind) :
    l.sameAs? r = .error ⟨l.kind, r.kind⟩ := by
  cases l <;> cases r <;> first | rfl | exact absurd rfl h

theorem sameAs?_of_kind_eq {l r : Node} (h : l.kind = r.kind) :
    ∃ b, l.sameAs? r = .ok b ∧ (b ↔ l.eraseSpans = r.eraseSpans) := by
  cases l with
  | type σ =>
      cases r with
      | type τ => exact ⟨_, rfl, (σ.sameAs_iff τ).trans (by simp [eraseSpans])⟩
      | _ => cases h
  | binding b =>
      cases r with
      | binding c => exact ⟨_, rfl, (b.sameAs_iff c).trans (by simp [eraseSpans])⟩
      | _ => cases h
  | expr e =>
      cases r with
      | expr f => exact ⟨_, rfl, (e.sameAs_iff f).trans (by simp [eraseSpans])⟩
      | _ => cases h
  | term t =>
      cases r with
      | term u => exact ⟨_, rfl, (t.sameAs_iff u).trans (by simp [eraseSpans])⟩
      | _ => cases h

theorem same_iff_eraseSpans {l r : Node} : l.Same r ↔ l.eraseSpans = r.eraseSpans := by
  unfold Same
  by_cases h : l.kind = r.kind
  · obtain ⟨b, hb, hiff⟩ := sameAs?_of_kind_eq h
    rw [hb, ← hiff, Except.ok.injEq]
  · rw [sameAs?_of_kind_ne h]
    constructor
    · exact nofun
    · intro heq
      have hkind := congrArg kind heq
      rw [kind_eraseSpans, kind_eraseSpans] at hkind
      exact absurd hkind h

theorem same_equivalence : Equivalence Same where
  refl _ := same_iff_eraseSpans.mpr rfl
  symm h := same_iff_eraseSpans.mpr (same_iff_eraseSpans.mp h).symm
  trans h h' := same_iff_eraseSpans.mpr
    ((same_iff_eraseSpans.mp h).trans (same_iff_eraseSpans.mp h'))

theorem forall₂_same_iff {ls rs : List Node} :
    List.Forall₂ Same ls rs ↔ ls.map eraseSpans = rs.map eraseSpans := by
  rw [← List.forall₂_eq_eq_eq, List.forall₂_map_left_iff, List.forall₂_map_right_iff]
  exact ⟨.imp fun _ _ => same_iff_eraseSpans.mp, .imp fun _ _ => same_iff_eraseSpans.mpr⟩

/-- Nodes are the same if their heads are equal and their parts are the same. -/
theorem same_iff {l r : Node} :
    l.Same r ↔ l.head = r.head ∧ List.Forall₂ Same l.parts r.parts := by
  rw [same_iff_eraseSpans, ext_iff, head_eraseSpans, head_eraseSpans, parts_eraseSpans,
    parts_eraseSpans, forall₂_same_iff]
  refine and_congr_right fun hhead => and_iff_left ?_
  -- Whether a node has a span is seen from its kind, and so from its head.
  have hkind : l.kind = r.kind := by
    rw [← kind_head, hhead, kind_head]
  rw [span?_eraseSpans, span?_eraseSpans]
  cases l <;> cases r <;> first | rfl | cases hkind

end Node

/-- `Node.sameAs?` fails iff the kinds differ, and names both. Otherwise it says whether the nodes
are equal after `eraseSpans`, which replaces the span of the node and of its parts and keeps
`head`.

By `Node.ext_iff` a node is its head, parts and span, so `Node.Same` is an equivalence, and two
nodes are `Same` iff their heads are equal and their parts are `Same` in order. -/
theorem node_equality_blind_to_spans :
    (∀ l r : Node, ((∃ e, l.sameAs? r = .error e) ↔ l.kind ≠ r.kind) ∧
      (l.kind ≠ r.kind → l.sameAs? r = .error ⟨l.kind, r.kind⟩ ∧
        r.sameAs? l = .error ⟨r.kind, l.kind⟩) ∧
      (l.kind = r.kind → ∃ b, l.sameAs? r = .ok b ∧ r.sameAs? l = .ok b ∧
        (b ↔ l.eraseSpans = r.eraseSpans))) ∧
    Function.Injective Node.Kind.label ∧
    (∀ l r : Node, l = r ↔ l.head = r.head ∧ l.parts = r.parts ∧ l.span? = r.span?) ∧
    (∀ n : Node, n.eraseSpans.head = n.head ∧ n.eraseSpans.parts = n.parts.map Node.eraseSpans ∧
      n.eraseSpans.span? = n.span?.map fun _ => .nowhere) ∧
    Equivalence Node.Same ∧
    ∀ l r : Node, l.Same r ↔ l.head = r.head ∧ List.Forall₂ Node.Same l.parts r.parts := by
  refine ⟨fun l r => ⟨?fails, ?mismatch, ?agrees⟩, ?labels, fun l r => Node.ext_iff,
    fun n => ?erased, Node.same_equivalence, fun l r => Node.same_iff⟩
  case fails =>
    constructor
    · rintro ⟨e, he⟩ hkind
      obtain ⟨b, hb, _⟩ := Node.sameAs?_of_kind_eq hkind
      cases he.symm.trans hb
    · exact fun h => ⟨_, Node.sameAs?_of_kind_ne h⟩
  case mismatch =>
    exact fun h => ⟨Node.sameAs?_of_kind_ne h, Node.sameAs?_of_kind_ne (Ne.symm h)⟩
  case agrees =>
    intro h
    obtain ⟨b, hb, hiff⟩ := Node.sameAs?_of_kind_eq h
    obtain ⟨c, hc, hiff'⟩ := Node.sameAs?_of_kind_eq h.symm
    have hbc : b = c := by
      rw [Bool.eq_iff_iff, hiff, hiff']
      exact eq_comm
    exact ⟨b, hb, hbc ▸ hc, hiff⟩
  case labels =>
    intro k k' h
    cases k <;> cases k' <;> first | rfl | exact absurd h (by decide)
  case erased => exact ⟨n.head_eraseSpans, n.parts_eraseSpans, n.span?_eraseSpans⟩

/-- An abstraction that was read at two places, at which its parts have two spans as well. It is not
compared with its type, whichever of the two comes first. -/
theorem node_equality_blind_to_spans_two_places :
    let bool (n : Nat) : Ty := .bool ⟨n + 3, n + 7⟩
    let lam (n : Nat) : Node := .term (.lam "x" (bool n) (.var 0 ⟨n + 9, n + 10⟩) ⟨n, n + 10⟩)
    let type : Node := .type (.arrow (bool 0) (bool 0) .nowhere)
    (lam 0 ≠ lam 5 ∧ (lam 0).Same (lam 5)) ∧ (lam 0).kind ≠ type.kind ∧
      (lam 0).sameAs? type = .error ⟨.term, .type⟩ ∧
      type.sameAs? (lam 0) = .error ⟨.type, .term⟩ := by
  intro bool lam type
  obtain ⟨hcompare, _, _, _, _, hsame⟩ := node_equality_blind_to_spans
  have hbool : Node.Same (.type (bool 0)) (.type (bool 5)) := (hsame _ _).mpr ⟨rfl, .nil⟩
  have hvar : Node.Same (.term (.var 0 ⟨9, 10⟩)) (.term (.var 0 ⟨14, 15⟩)) :=
    (hsame _ _).mpr ⟨rfl, .nil⟩
  refine ⟨⟨by decide, (hsame _ _).mpr ⟨rfl, .cons hbool (.cons hvar .nil)⟩⟩, by decide, ?_⟩
  exact (hcompare (lam 0) type).2.1 (by decide)

end Stlc
