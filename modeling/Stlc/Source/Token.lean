import Stlc.Span

/-!
# Tokens

The words of the surface syntax. A `Token` is a word with what it says; its `Terminal` is the
class of words that the grammar sees. A `Lexeme` is a token together with where it was read.
-/

namespace Stlc

inductive Terminal where
  | ident
  | lparen
  | rparen
  | arrow
  | dot
  | colon
  | bool
  | lambda
deriving DecidableEq

namespace Terminal

/-- Every terminal, in the order in which reports list them. -/
def all : List Terminal := [ident, lparen, rparen, arrow, dot, colon, bool, lambda]

/-- A terminal as reports name it: its text in quotes, or the pattern that its texts match. -/
def pattern : Terminal → String
  | ident => "r#\"[A-Za-z0-9_][A-Za-z0-9_']*\"#"
  | lparen => "\"(\""
  | rparen => "\")\""
  | arrow => "\"->\""
  | dot => "\".\""
  | colon => "\":\""
  | bool => "\"Bool\""
  | lambda => "\"\\\\\""

/-- The place of a terminal among the lexical rules. Rules 0 and 2 are those for what is skipped. -/
def rule : Terminal → Nat
  | ident => 1
  | lparen => 3
  | rparen => 4
  | arrow => 5
  | dot => 6
  | colon => 7
  | bool => 8
  | lambda => 9

end Terminal

inductive Token where
  | ident (name : String)
  | lparen
  | rparen
  | arrow
  | dot
  | colon
  | bool
  | lambda
deriving DecidableEq

namespace Token

def terminal : Token → Terminal
  | ident _ => .ident
  | lparen => .lparen
  | rparen => .rparen
  | arrow => .arrow
  | dot => .dot
  | colon => .colon
  | bool => .bool
  | lambda => .lambda

def text : Token → String
  | ident x => x
  | lparen => "("
  | rparen => ")"
  | arrow => "->"
  | dot => "."
  | colon => ":"
  | bool => "Bool"
  | lambda => "\\"

end Token

structure Lexeme where
  token : Token
  span : Span
deriving DecidableEq

end Stlc
