import Stlc.Source.Token

/-!
# Syntax errors

A text that is not well formed fails at its first character that begins no token, at its first
token that cannot stand where it stands, or at its end.
-/

namespace Stlc

inductive SyntaxError where
  /-- No token begins at this offset. -/
  | invalidToken (offset : Nat)
  /-- The text stops too early; its last token ends at this offset. -/
  | unexpectedEnd (offset : Nat) (expected : List Terminal)
  /-- A token that cannot stand here. -/
  | unexpectedToken (lexeme : Lexeme) (expected : List Terminal)
deriving DecidableEq

namespace SyntaxError

/-- A list of alternatives: commas between them, and "or" before the last of several. -/
def alternatives : List String → String
  | [] => ""
  | [x] => x
  | [x, y] => x ++ " or " ++ y
  | x :: xs => x ++ ", " ++ alternatives xs

/-- The line that says what could have come instead, if anything could. -/
def hint (expected : List Terminal) : String :=
  if expected = [] then ""
  else "\nExpected one of " ++ alternatives (expected.map Terminal.pattern)

def message : SyntaxError → String
  | invalidToken n => "Invalid token at " ++ toString n
  | unexpectedEnd n expected => "Unrecognized EOF found at " ++ toString n ++ hint expected
  | unexpectedToken l expected =>
    "Unrecognized token `" ++ l.token.text ++ "` found at " ++ toString l.span.start ++ ":"
      ++ toString l.span.stop ++ hint expected

end SyntaxError

end Stlc
