import Stlc.Dump.Nodes
import Stlc.Failure

/-!
# Dumps of failures

A failure is shown with everything it carries, spans included.
-/

namespace Stlc

def Span.dump (s : Span) : Dump := .leaf (toString s.start ++ ".." ++ toString s.stop)

def Dump.number (name : String) (n : Nat) : Dump := .field name (.leaf (toString n))

/-- Shows a list of terminals, by the names that reports have for them. -/
def Terminal.dumpAll (ts : List Terminal) : Dump :=
  .list (ts.map (.leaf ∘ quoted ∘ Terminal.pattern))

/-- Shows a token, with the place of its class among the lexical rules. -/
def Token.dump (t : Token) : Dump :=
  .tuple "Token" [.leaf (toString t.terminal.rule), .leaf (quoted t.text)]

def Lexeme.dump (l : Lexeme) : Dump :=
  .tuple "" [.leaf (toString l.span.start), l.token.dump, .leaf (toString l.span.stop)]

def SyntaxError.dump : SyntaxError → Dump
  | invalidToken n => .record "InvalidToken" [.number "location" n]
  | unexpectedEnd n expected =>
    .record "UnrecognizedEof" [.number "location" n, .field "expected" (Terminal.dumpAll expected)]
  | unexpectedToken l expected =>
    .record "UnrecognizedToken"
      [.field "token" l.dump, .field "expected" (Terminal.dumpAll expected)]

def UnboundName.dump (e : UnboundName) : Dump :=
  .record "NameNotFound" [.field "name" (.leaf (quoted e.name)), .field "span" e.span.dump]

def TypingError.dump : TypingError → Dump
  | unboundIndex i depth span =>
    .record "UnboundIndex" [.number "index" i, .number "depth" depth, .field "span" span.dump]
  | untypedBinding x i span =>
    .record "UntypedBinding"
      [.field "name" (.leaf (quoted x)), .number "index" i, .field "span" span.dump]
  | notAFunction found span =>
    .record "NotAFunction" [.field "found" found.dump, .field "span" span.dump]
  | mismatch expected found span fnSpan =>
    .record "Mismatch"
      [.field "expected" expected.dump, .field "found" found.dump, .field "span" span.dump,
        .field "abs_span" fnSpan.dump]

def ShiftError.dump (e : ShiftError) : Dump := .tuple "Illegal" [.leaf (quoted e.reason)]

def Failure.dump : Failure → Dump
  | parse e => .tuple "Parse" [e.dump]
  | resolve e => .tuple "Resolve" [e.dump]
  | typing e => .tuple "TypeCheck" [e.dump]
  | evaluation e => .tuple "Evaluation" [e.dump]

end Stlc
