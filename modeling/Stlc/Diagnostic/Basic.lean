import Stlc.Failure

/-!
# Diagnostics

A diagnostic explains a failure to whoever wrote the text: a title, the places in the text that it
is about, and a note below. One of the places is the primary one, where the failure lies; another
may be marked because it is part of the reason.
-/

namespace Stlc

inductive Role where
  | primary
  | context
deriving DecidableEq

/-- A marked place and what is said about it. -/
structure Annotation where
  role : Role
  span : Span
  label? : Option String

/-- An explanation of a failure. Only one without marked places does not show the text. -/
structure Diagnostic where
  title : String
  annotations : List Annotation := []
  note? : Option String := none

def SyntaxError.label? : List Terminal → Option String
  | [] => none
  | [t] => some ("expected " ++ t.pattern)
  | ts => some ("expected one of " ++ String.intercalate ", " (ts.map Terminal.pattern))

def SyntaxError.explain : SyntaxError → Diagnostic
  | invalidToken n =>
    { title := "invalid token"
      annotations := [⟨.primary, .point n, none⟩] }
  | unexpectedEnd n expected =>
    { title := "unexpected end of input"
      annotations := [⟨.primary, .point n, label? expected⟩] }
  | unexpectedToken l expected =>
    { title := "unexpected token `" ++ l.token.text ++ "`"
      annotations := [⟨.primary, l.span, label? expected⟩] }

def UnboundName.explain (e : UnboundName) : Diagnostic :=
  { title := "variable '" ++ e.name ++ "' not found"
    annotations :=
      [⟨.primary, e.span, some "not bound by any enclosing abstraction or in the context"⟩] }

def TypingError.explain : TypingError → Diagnostic
  | unboundIndex i depth span =>
    { title := "variable index " ++ toString i ++ " not found"
      annotations := [⟨.primary, span, none⟩]
      note? := some ("the context only has " ++ toString depth ++ " bindings at this point") }
  | untypedBinding x i span =>
    { title := "variable '" ++ x ++ "' has no known type"
      annotations :=
        [⟨.primary, span,
          some ("refers to binding " ++ toString i ++ ", declared without a type")⟩] }
  | notAFunction found span =>
    { title := "cannot apply an argument to type `" ++ found.toText ++ "`"
      annotations := [⟨.primary, span, some "expected a function"⟩] }
  | mismatch expected found span fnSpan =>
    { title := "type mismatch: expected `" ++ expected.toText ++ "`"
      annotations :=
        [⟨.context, fnSpan, some ("function taking `" ++ expected.toText ++ "`")⟩,
          ⟨.primary, span, some ("argument of type `" ++ found.toText ++ "`")⟩]
      note? :=
        some ("expected: `" ++ expected.toText ++ "`\nfound:    `" ++ found.toText ++ "`") }

/-- Explains a failed shift, which no place in a text is to blame for. -/
def ShiftError.explain (e : ShiftError) : Diagnostic :=
  { title := "illegal error (bug)"
    note? := some e.reason }

def Failure.explain : Failure → Diagnostic
  | parse e => e.explain
  | resolve e => e.explain
  | typing e => e.explain
  | evaluation e => e.explain

end Stlc
