import Stlc.Parse.Error
import Stlc.Resolve
import Stlc.Term.Shift
import Stlc.Typing

/-!
# Failures

A program can fail at each of its stages. A `Failure` says at which, and why.
-/

namespace Stlc

inductive Failure where
  | parse (error : SyntaxError)
  | resolve (error : UnboundName)
  | typing (error : TypingError)
  | evaluation (error : ShiftError)
deriving DecidableEq

/-- The report on a failure, on the stage it belongs to and the reason. -/
def Failure.message : Failure → String
  | parse e => "parse error: " ++ e.message
  | resolve e => "resolve error: " ++ e.message
  | typing e => "type error: " ++ e.message
  | evaluation e => "evaluation error: " ++ e.message

end Stlc
