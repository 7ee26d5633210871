import Stlc.Context
import Stlc.Term.Basic

/-!
# Typing

`Term.typeOf` computes the type of a term in a context, or the first reason why there is none: of
an application the function is looked at first, then the argument, then whether the two fit.

There are two rules for an application. The usual one, `structural`, asks that the argument has
the input type of the function, and answers its output type. The coarse one, `formerOnly`, asks
only that the two types agree in their outermost former, and answers the type of the argument.
-/

namespace Stlc

/-- The rule by which applications are typed. -/
inductive ApplicationRule where
  | structural
  | formerOnly
deriving DecidableEq

/-- Why a term has no type. -/
inductive TypingError where
  /-- A variable counts past the end of the context, which has `depth` bindings there. -/
  | unboundIndex (index depth : Nat) (span : Span)
  /-- A variable refers to a binding without a type. -/
  | untypedBinding (name : String) (index : Nat) (span : Span)
  /-- The function of an application, at `span`, has a type that is not an arrow. -/
  | notAFunction (found : Ty) (span : Span)
  /-- The function at `fnSpan` takes `expected`; the argument at `span` has type `found`. -/
  | mismatch (expected found : Ty) (span fnSpan : Span)
deriving DecidableEq

def TypingError.message : TypingError → String
  | unboundIndex i depth _ =>
    "variable index " ++ toString i ++ " is out of range for a context of " ++ toString depth
      ++ " bindings"
  | untypedBinding x i _ => "variable '" ++ x ++ "' (index " ++ toString i ++ ") has no known type"
  | notAFunction found _ => "cannot apply an argument to type: `" ++ found.toText ++ "`"
  | mismatch expected found _ _ =>
    "type mismatch:\nexpected: `" ++ expected.toText ++ "`\nfound:    `" ++ found.toText ++ "`"

/-- The type of the variable `i`, which was read at `span`. -/
def Context.typeOf (Γ : Context) (i : Nat) (span : Span) : Except TypingError Ty :=
  match Γ.get? i with
  | none => .error (.unboundIndex i Γ.size span)
  | some (.untyped x) => .error (.untypedBinding x i span)
  | some (.typed _ τ) => .ok τ

/-- The type of an argument of type `found` under a function that takes `input` and answers
`output`, if the rule lets the two meet. -/
def ApplicationRule.result? (rule : ApplicationRule) (input output found : Ty) : Option Ty :=
  match rule with
  | structural => if input.sameAs found then some output else none
  | formerOnly => if input.former = found.former then some found else none

namespace Term

def typeOf (rule : ApplicationRule) (Γ : Context) : Term → Except TypingError Ty
  | var i s => Γ.typeOf i s
  | lam x τ t s => do return .arrow τ (← t.typeOf rule (Γ.push (.typed x τ))) s
  | app t₁ t₂ _ => do
    let τ₁ ← t₁.typeOf rule Γ
    let τ₂ ← t₂.typeOf rule Γ
    match τ₁ with
    | .arrow input output _ =>
      match rule.result? input output τ₂ with
      | some τ => return τ
      | none => throw (.mismatch input τ₂ t₂.span t₁.span)
    | .bool _ => throw (.notAFunction τ₁ t₁.span)

end Term

end Stlc
