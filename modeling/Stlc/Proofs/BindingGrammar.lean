import Stlc.Parse.Binding
import Stlc.Proofs.TypeGrammar

/-!
# The grammar of bindings

A binding is a name, or a name and a type. `Binding.parse_eq_ok_iff` says that the reader finds the
binding that is derived and no other; behind the colon it is the reader of types.
-/

namespace Stlc

namespace Binding

inductive Derives : List Lexeme → Binding → Prop where
  | untyped {x s} : Derives [⟨.ident x, s⟩] (.untyped x)
  | typed {x s s' ls τ} : Ty.Derives .type ls τ →
      Derives (⟨.ident x, s⟩ :: ⟨.colon, s'⟩ :: ls) (.typed x τ)

theorem Progress.step_type {p q : Ty.Progress} {l : Lexeme} (x : String) (h : p.step l = some q) :
    step (.type x p) l = some (.type x q) := by
  rw [step, h]
  rfl

theorem feed_type {p q : Ty.Progress} {ls : List Lexeme} (x : String)
    (h : Ty.reader.feed p ls = some q) : reader.feed (.type x p) ls = some (.type x q) :=
  Reader.feed_map (Progress.type x) (Progress.step_type x) h

inductive Progress.Reads : Progress → List Lexeme → Prop where
  | start : Reads .start []
  | name {x s} : Reads (.name x) [⟨.ident x, s⟩]
  | type {x s s' p ls} : p.Reads ls → Reads (.type x p) (⟨.ident x, s⟩ :: ⟨.colon, s'⟩ :: ls)

theorem Progress.Reads.step {p q : Progress} {ls : List Lexeme} {l : Lexeme} (h : p.Reads ls)
    (hstep : p.step l = some q) : q.Reads (ls ++ [l]) := by
  obtain ⟨t, s⟩ := l
  cases h with
  | start =>
      cases t with
      | ident x =>
          cases hstep
          exact .name
      | _ => cases hstep
  | name =>
      cases t with
      | colon =>
          cases hstep
          exact .type (.start .nil)
      | _ => cases hstep
  | type hp =>
      obtain ⟨p', hp', rfl⟩ := Option.map_eq_some_iff.mp hstep
      exact .type (hp.step hp')

theorem Progress.Reads.result {p : Progress} {ls : List Lexeme} {b : Binding} (h : p.Reads ls)
    (hresult : p.result? = some b) : Derives ls b := by
  cases h with
  | start => cases hresult
  | name =>
      cases hresult
      exact .untyped
  | type hp =>
      obtain ⟨τ, hτ, rfl⟩ := Option.map_eq_some_iff.mp hresult
      exact .typed (hp.result hτ)

/-- A sequence of tokens leads to a binding exactly when it is derived as that binding. -/
theorem derives_iff {ls : List Lexeme} {b : Binding} :
    Derives ls b ↔ ∃ p, reader.feed reader.start ls = some p ∧ p.result? = some b := by
  constructor
  · intro h
    cases h with
    | untyped => exact ⟨_, rfl, rfl⟩
    | @typed x s s' ls τ hτ =>
        obtain ⟨p, hp, hresult⟩ := Ty.derives_iff.mp hτ
        refine ⟨.type x p, feed_type x hp, ?_⟩
        rw [Progress.result?, hresult]
        rfl
  · rintro ⟨p, hfeed, hresult⟩
    have hreads : p.Reads ([] ++ ls) :=
      Reader.feed_invariant Progress.Reads Progress.Reads.step .start hfeed
    exact hreads.result hresult

/-- The text of a binding is one whose tokens are derived as that binding. -/
theorem parse_eq_ok_iff {source : String} {b : Binding} :
    parse source = .ok b ↔ ∃ ls, Scan.ofString source = ⟨ls, none⟩ ∧ Derives ls b := by
  rw [parse, Reader.parse_eq_ok_iff]
  simp only [derives_iff]
  rfl

end Binding

end Stlc
