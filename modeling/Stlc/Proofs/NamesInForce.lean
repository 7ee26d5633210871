import Stlc.Proofs.Naming
import Stlc.Proofs.Resolution

/-!
# Names in force

An abstraction is written with the name that it carries, or else with that name and as many primes
as it takes to have one that is not in force. `Priming` is the search for it, which has no bound of
its own: it ends because no more primes are put on than there are names in force
(`freshName_priming`).

A term is written in one pass from the left, on one stack of names: an abstraction puts its name on
top, and takes it away at its end. `Term.actions` is what is done in that pass, one thing after the
other, and `Term.Page` what it is done to. The text comes out as `Term.write` gives it, and the
stack as it was before (`Term.writes_actions`).

At any moment of the pass the stack is what the abstractions around make it: their names, as they
are chosen one within the other (`Term.chosen`), on top of those of the context. One action keeps
that (`Term.Page.names_step`), unless it takes away a name that no abstraction put there, which does
not happen (`Term.isClosed_actions`); so does the beginning of any pass (`Term.Page.names_run`).

The main statement is `names_in_force_distinct`.
-/

namespace Stlc

/-! ## Primes -/

def primed (x : String) (k : Nat) : String := x ++ String.ofList (List.replicate k '\'')

theorem primed_zero (x : String) : primed x 0 = x := by
  simp [primed]

theorem primed_prime (x : String) (k : Nat) : primed (x ++ "'") k = primed x (k + 1) := by
  rw [← String.toList_inj]
  simp [primed, List.replicate_succ]

theorem mem_primed_iff {x : String} {k : Nat} {c : Char} (hc : c ≠ '\'') :
    c ∈ (primed x k).toList ↔ c ∈ x.toList := by
  simp [primed, hc]

/-- The search for a name that is not taken, from `x`, ends with `y` after it has put on `k`
primes. -/
inductive Priming (taken : List String) : String → Nat → String → Prop where
  | stop {x} : x ∉ taken → Priming taken x 0 x
  | prime {x k y} : x ∈ taken → Priming taken (x ++ "'") k y → Priming taken x (k + 1) y

theorem priming_iff {taken : List String} {x y : String} {k : Nat} :
    Priming taken x k y ↔
      y = primed x k ∧ primed x k ∉ taken ∧ ∀ j < k, primed x j ∈ taken := by
  induction k generalizing x with
  | zero =>
      rw [primed_zero]
      constructor
      · rintro (hx | _)
        exact ⟨rfl, hx, nofun⟩
      · rintro ⟨rfl, hx, _⟩
        exact .stop hx
  | succ k ih =>
      rw [← primed_prime]
      constructor
      · rintro (_ | ⟨hx, h⟩)
        obtain ⟨hy, hfree, htaken⟩ := ih.mp h
        refine ⟨hy, hfree, fun j hj => ?_⟩
        cases j with
        | zero => rwa [primed_zero]
        | succ j =>
            rw [← primed_prime]
            exact htaken j (Nat.lt_of_succ_lt_succ hj)
      · rintro ⟨hy, hfree, htaken⟩
        have hx : x ∈ taken := primed_zero x ▸ htaken 0 k.succ_pos
        refine .prime hx (ih.mpr ⟨hy, hfree, fun j hj => ?_⟩)
        rw [primed_prime]
        exact htaken (j + 1) (Nat.succ_lt_succ hj)

/-- The search ends in one way only. -/
theorem Priming.unique {taken : List String} {x y z : String} {k n : Nat}
    (h : Priming taken x k y) (h' : Priming taken x n z) : n = k ∧ z = y := by
  induction h generalizing n with
  | stop hx =>
      cases h' with
      | stop _ => exact ⟨rfl, rfl⟩
      | prime hx' _ => exact absurd hx' hx
  | prime hx _ ih =>
      cases h' with
      | stop hx' => exact absurd hx hx'
      | prime _ h' =>
          obtain ⟨rfl, rfl⟩ := ih h'
          exact ⟨rfl, rfl⟩

/-- If the primes that may be put on suffice, they are put on as the search does. -/
theorem freshName.go_priming {taken : List String} {n : Nat} {x : String}
    (h : go taken n x ∉ taken) : ∃ k ≤ n, Priming taken x k (go taken n x) := by
  induction n generalizing x with
  | zero => exact ⟨0, Nat.le_refl 0, .stop h⟩
  | succ n ih =>
      rw [go] at h ⊢
      split at h
      · next hx =>
          obtain ⟨k, hk, hpriming⟩ := ih h
          rw [if_pos hx]
          exact ⟨k + 1, Nat.succ_le_succ hk, .prime hx hpriming⟩
      · next hx =>
          rw [if_neg hx]
          exact ⟨0, Nat.zero_le _, .stop hx⟩

theorem freshName_priming (taken : List String) (x : String) :
    ∃ k ≤ taken.length, Priming taken x k (freshName taken x) :=
  freshName.go_priming (freshName_not_mem taken x)

namespace Term

/-! ## Writing as a pass -/

inductive Action where
  /-- Writes something that does not depend on names. -/
  | text (s : String)
  /-- Writes a variable. -/
  | var (index : Nat)
  /-- Writes the head of an abstraction, and puts the name it is written with in force. -/
  | enter (name : String) (type : Ty)
  /-- Takes away the name that was put in force last. -/
  | leave

def parenthesized (c : Prop) [Decidable c] (as : List Action) : List Action :=
  if c then .text "(" :: (as ++ [.text ")"]) else as

/-- What is done, from the left to the right, to write a term at a position. -/
def actions (pos : Position) : Term → List Action
  | var i _ => [.var i]
  | lam x τ t _ => parenthesized (pos ≠ .top) (.enter x τ :: (t.actions .top ++ [.leave]))
  | app t u _ =>
    parenthesized (pos = .argument) (t.actions .head ++ .text " " :: u.actions .argument)

/-- A text up to the place where it goes on, with the names that are in force there. -/
structure Page where
  names : Stack String
  text : String

namespace Page

def step (p : Page) : Action → Page
  | .text s => ⟨p.names, p.text ++ s⟩
  | .var i => ⟨p.names, p.text ++ (nameIn? p.names i).getD ("#" ++ toString i)⟩
  | .enter x τ =>
    let x := freshName p.names.entries x
    ⟨p.names.push x, p.text ++ ("\\" ++ x ++ ":" ++ τ.toText ++ ". ")⟩
  | .leave => ⟨⟨p.names.entries.tail⟩, p.text⟩

def run (p : Page) (as : List Action) : Page := as.foldl step p

@[simp] theorem run_cons (p : Page) (a : Action) (as : List Action) :
    p.run (a :: as) = (p.step a).run as := rfl

@[simp] theorem run_append (p : Page) (as bs : List Action) :
    p.run (as ++ bs) = (p.run as).run bs := List.foldl_append

end Page

/-- Where these names are in force, the actions write the text and leave the names as they were. -/
def Writes (names : Stack String) (as : List Action) (text : String) : Prop :=
  ∀ before, Page.run ⟨names, before⟩ as = ⟨names, before ++ text⟩

namespace Writes

variable {names : Stack String} {as bs : List Action} {text more : String}

theorem append (has : Writes names as text) (hbs : Writes names bs more) :
    Writes names (as ++ bs) (text ++ more) := by
  intro before
  rw [Page.run_append, has, hbs, String.append_assoc]

theorem text_cons (s : String) (has : Writes names as text) :
    Writes names (.text s :: as) (s ++ text) := by
  intro before
  rw [Page.run_cons, Page.step, has, String.append_assoc]

theorem parenthesized {c : Prop} [Decidable c] (has : Writes names as text) :
    Writes names (parenthesized c as) (if c then "(" ++ text ++ ")" else text) := by
  have hclose : Writes names [.text ")"] ")" := fun _ => rfl
  unfold Term.parenthesized
  split
  · rw [String.append_assoc]
    exact (has.append hclose).text_cons "("
  · exact has

/-- A name that is put in force for the body of an abstraction is not in force behind it. -/
theorem abstraction {x : String} {τ : Ty}
    (has : Writes (names.push (freshName names.entries x)) as text) :
    Writes names (.enter x τ :: (as ++ [.leave]))
      ("\\" ++ freshName names.entries x ++ ":" ++ τ.toText ++ ". " ++ text) := by
  intro before
  rw [Page.run_cons, Page.step, Page.run_append, has, String.append_assoc]
  rfl

end Writes

/-- The pass writes the term. -/
theorem writes_actions (names : Stack String) (t : Term) (pos : Position) :
    Writes names (t.actions pos) (t.write names pos) := by
  induction t generalizing names pos with
  | var i s => exact fun _ => rfl
  | lam x τ t s ih =>
      rw [actions, write, ← ite_not]
      exact (ih (names.push (freshName names.entries x)) .top).abstraction.parenthesized
  | app t u s iht ihu =>
      have hboth := (iht names .head).append ((ihu names .argument).text_cons " ")
      rw [← String.append_assoc] at hboth
      exact hboth.parenthesized

/-! ## The abstractions around -/

/-- The names that the abstractions around carry, innermost first, after one more action. -/
def Action.around (binders : List String) : Action → List String
  | .enter x _ => x :: binders
  | .leave => binders.tail
  | _ => binders

/-- The names that the abstractions carry which are begun and not ended, innermost first. -/
def around (as : List Action) : List String := as.foldl Action.around []

/-- Where an abstraction ends there is one. -/
def IsNested : List String → List Action → Prop
  | _, [] => True
  | binders, a :: as => (a = .leave → binders ≠ []) ∧ IsNested (a.around binders) as

/-- The actions end the abstractions that they begin, and no other. -/
def IsClosed (as : List Action) : Prop :=
  ∀ binders bs, IsNested binders bs → IsNested binders (as ++ bs)

namespace IsClosed

variable {as bs : List Action}

theorem text (s : String) : IsClosed [.text s] := fun _ _ h => ⟨nofun, h⟩

theorem append (has : IsClosed as) (hbs : IsClosed bs) : IsClosed (as ++ bs) := by
  intro binders cs h
  rw [List.append_assoc]
  exact has _ _ (hbs _ _ h)

theorem parenthesized {c : Prop} [Decidable c] (has : IsClosed as) :
    IsClosed (parenthesized c as) := by
  unfold Term.parenthesized
  split
  · exact (text "(").append (has.append (text ")"))
  · exact has

theorem abstraction (x : String) (τ : Ty) (has : IsClosed as) :
    IsClosed (.enter x τ :: (as ++ [.leave])) := by
  intro binders bs h
  rw [List.cons_append, List.append_assoc]
  exact ⟨nofun, has _ _ ⟨fun _ => List.cons_ne_nil x binders, h⟩⟩

end IsClosed

theorem isClosed_actions (t : Term) (pos : Position) : IsClosed (t.actions pos) := by
  induction t generalizing pos with
  | var i s => exact fun _ _ h => ⟨nofun, h⟩
  | lam x τ t s ih => exact ((ih .top).abstraction x τ).parenthesized
  | app t u s iht ihu =>
      exact ((iht .head).append ((IsClosed.text " ").append (ihu .argument))).parenthesized

/-! ## What is in force -/

/-- The names that are chosen for abstractions one within the other, innermost first, where those of
`outer` are in force around them. -/
def chosen (outer : List String) : List String → List String
  | [] => []
  | x :: binders => freshName (chosen outer binders ++ outer) x :: chosen outer binders

theorem chosen_not_mem {outer binders : List String} : ∀ x ∈ chosen outer binders, x ∉ outer := by
  induction binders with
  | nil => exact nofun
  | cons x binders ih =>
      have hx := freshName_not_mem (chosen outer binders ++ outer) x
      exact List.forall_mem_cons.mpr ⟨fun hmem => hx (List.mem_append_right _ hmem), ih⟩

theorem nodup_chosen (outer binders : List String) : (chosen outer binders).Nodup := by
  induction binders with
  | nil => exact List.nodup_nil
  | cons x binders ih =>
      have hx := freshName_not_mem (chosen outer binders ++ outer) x
      exact List.nodup_cons.mpr ⟨fun hmem => hx (List.mem_append_left _ hmem), ih⟩

theorem chosen_primed (outer binders : List String) :
    List.Forall₂ (fun x y => ∃ k, y = primed x k) binders (chosen outer binders) := by
  induction binders with
  | nil => exact .nil
  | cons x binders ih =>
      obtain ⟨k, _, hk⟩ := freshName_priming (chosen outer binders ++ outer) x
      exact .cons ⟨k, (priming_iff.mp hk).1⟩ ih

/-- The names chosen for the abstractions around lead back to them. -/
theorem nameIn?_chosen {outer binders : List String} {i : Nat}
    (hi : i < (chosen outer binders).length) :
    nameIn? ⟨chosen outer binders ++ outer⟩ i = some (chosen outer binders)[i] := by
  have hfound : (chosen outer binders).findIdx? (· == (chosen outer binders)[i]) = some i := by
    refine List.findIdx?_eq_some_iff_getElem.mpr ⟨hi, beq_self_eq_true _, fun j hj => ?_⟩
    -- A name that is found further in would be there twice.
    have hne : (chosen outer binders)[j] ≠ (chosen outer binders)[i] := by
      rw [Ne, (nodup_chosen outer binders).getElem_inj_iff]
      exact Nat.ne_of_lt hj
    simpa using hne
  rw [nameIn?_eq_some_iff, Stack.findIdx?, List.findIdx?_append, hfound]
  rfl

/-- An action that ends no abstraction, or one that was begun, leaves the names in force that are
chosen for the abstractions around. -/
theorem Page.names_step {p : Page} {outer binders : List String} {a : Action}
    (h : p.names.entries = chosen outer binders ++ outer) (ha : a = .leave → binders ≠ []) :
    (p.step a).names.entries = chosen outer (a.around binders) ++ outer := by
  cases a with
  | text s => exact h
  | var i => exact h
  | enter x τ =>
      show freshName p.names.entries x :: p.names.entries = _
      rw [h]
      rfl
  | leave =>
      cases binders with
      | nil => exact absurd rfl (ha rfl)
      | cons x binders => exact congrArg List.tail h

/-- So does the beginning of any actions that are nested. -/
theorem Page.names_run {p : Page} {outer binders : List String} {before after : List Action}
    (h : p.names.entries = chosen outer binders ++ outer)
    (hnested : IsNested binders (before ++ after)) :
    (p.run before).names.entries = chosen outer (before.foldl Action.around binders) ++ outer := by
  induction before generalizing p binders with
  | nil => exact h
  | cons a before ih => exact ih (names_step h hnested.1) hnested.2

end Term

open Term in
/-- `freshName` ends: it adds the least number of primes that leaves `taken`, no more than `taken`
is long, and it maps names to names.

`Term.actions` is what `display` does in order, and `Page.run` its state at each moment. There the
names in force are those of `Γ` below those that `chosen` gave the binders around, each a binder's
own name with primes; these differ from each other and from those of `Γ`. So the name that a bound
variable is written with resolves to its index, and is never the `#` form. -/
theorem names_in_force_distinct :
    (∀ (taken : List String) (x : String), ∃ k ≤ taken.length,
      (∀ n y, Priming taken x n y ↔ n = k ∧ y = freshName taken x) ∧
      freshName taken x = primed x k ∧ IsLeast {j | primed x j ∉ taken} k ∧
      (IsName x → IsName (freshName taken x))) ∧
    ∀ (Γ : Context) (t : Term), Writes Γ.names (t.actions .top) (t.display Γ) ∧
      ∀ before after, t.actions .top = before ++ after →
        let page := Page.run ⟨Γ.names, ""⟩ before
        let inner := chosen Γ.names.entries (around before)
        page.names.entries = inner ++ Γ.names.entries ∧
        inner.Nodup ∧ (∀ x ∈ inner, x ∉ Γ.names.entries) ∧
        List.Forall₂ (fun x y => ∃ k, y = primed x k) (around before) inner ∧
        ∀ i rest, after = .var i :: rest → ∀ hi : i < (around before).length,
          ∃ y, inner[i]? = some y ∧ page.step (.var i) = ⟨page.names, page.text ++ y⟩ ∧
            (∀ s, (Expr.var y s).resolveIn page.names = .ok (.var i s)) ∧
            ('#' ∈ y.toList ↔ '#' ∈ (around before)[i].toList) := by
  refine ⟨?search, fun Γ t => ⟨writes_actions Γ.names t .top, ?moment⟩⟩
  case search =>
    intro taken x
    obtain ⟨k, hk, hpriming⟩ := freshName_priming taken x
    obtain ⟨hfresh, hfree, htaken⟩ := priming_iff.mp hpriming
    refine ⟨k, hk, fun n y => ⟨hpriming.unique, ?_⟩, hfresh, ⟨hfree, fun j hj => ?_⟩,
      fun hx => hx.freshName taken⟩
    · rintro ⟨rfl, rfl⟩
      exact hpriming
    · exact Nat.le_of_not_lt fun hlt => hj (htaken j hlt)
  case moment =>
    intro before after hsplit page inner
    have hnested : IsNested [] (before ++ after) := by
      rw [← hsplit, ← List.append_nil (t.actions .top)]
      exact isClosed_actions t .top [] [] trivial
    have hnames : page.names.entries = inner ++ Γ.names.entries := Page.names_run rfl hnested
    have hprimed : List.Forall₂ _ (around before) inner := chosen_primed _ _
    refine ⟨hnames, nodup_chosen _ _, chosen_not_mem, hprimed, fun i rest _ hi => ?_⟩
    have hi' : i < inner.length := hprimed.length_eq ▸ hi
    have hname : nameIn? page.names i = some inner[i] := by
      rw [← nameIn?_chosen hi', ← hnames]
    refine ⟨inner[i], List.getElem?_eq_getElem hi', ?_, fun s => ?_, ?_⟩
    · rw [Page.step, hname]
      rfl
    · exact Expr.resolveIn_var_eq_ok_iff.mpr ⟨i, nameIn?_eq_some_iff.mp hname, rfl⟩
    · obtain ⟨k, hk⟩ : ∃ k, inner[i] = primed (around before)[i] k := hprimed.get hi hi'
      rw [hk]
      exact mem_primed_iff (by decide)

open Term in
/-- An abstraction that carries a name of the context, and in it one that carries what the first one
is written with. -/
theorem names_in_force_distinct_primed :
    let Γ : Context := .ofList [.untyped "x"]
    let bool : Ty := .bool .nowhere
    let t : Term := .lam "x" bool (.lam "x'" bool
      (.app (.var 1 .nowhere) (.var 0 .nowhere) .nowhere) .nowhere) .nowhere
    let page := Page.run ⟨Γ.names, ""⟩ [.enter "x" bool, .enter "x'" bool]
    t.display Γ = "\\x':Bool. \\x'':Bool. x' x''" ∧
    (page.names.toList = ["x", "x'", "x''"] ∧ page.names.toList.tail.Nodup) ∧
    page.step (.var 1) = ⟨page.names, page.text ++ "x'"⟩ := by
  intro Γ bool t page
  obtain ⟨_, hnodup, _, _, hvar⟩ := (names_in_force_distinct.2 Γ t).2 [.enter "x" bool,
    .enter "x'" bool] [.var 1, .text " ", .var 0, .leave, .leave] rfl
  have hchosen : chosen Γ.names.entries ["x'", "x"] = ["x''", "x'"] := by decide
  obtain ⟨y, hy, hstep, _⟩ := hvar 1 _ rfl (Nat.lt_succ_self 1)
  obtain rfl : "x'" = y := Option.some.inj ((congrArg (·[1]?) hchosen).symm.trans hy)
  refine ⟨by decide, ⟨by decide, ?_⟩, hstep⟩
  exact List.nodup_reverse.mpr (hchosen ▸ hnodup)

end Stlc
