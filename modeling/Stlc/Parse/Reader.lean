import Stlc.Parse.Error
import Stlc.Source.Scan

/-!
# Readers

A `Reader` reads a text one token at a time. Its state is all that later tokens depend on, and it
refuses a token as soon as nothing that begins with the tokens up to it is well formed. Tokens are
scanned as they are needed, so an error in the tokens and an error of the grammar exclude each
other by position: the earlier one is reported.
-/

namespace Stlc

/-- A syntax, read token by token through states `σ` into results `α`. -/
structure Reader (σ α : Type) where
  /-- The state before the first token. -/
  start : σ
  /-- The state after one more token, if the token can stand there. -/
  step : σ → Lexeme → Option σ
  /-- The result, if the text may end in this state. -/
  result? : σ → Option α
  /-- What a report on the token that follows names as possible instead; `none` stands for the
  end of the text. -/
  expected : σ → Option Terminal → List Terminal

namespace Reader

variable {σ α : Type} (R : Reader σ α)

/-- Reads tokens one after the other. `stop` is where the token before them ended; the offset that
is answered is where the last one did. -/
def run (s : σ) (stop : Nat) : List Lexeme → Except SyntaxError (σ × Nat)
  | [] => .ok (s, stop)
  | l :: ls =>
    match R.step s l with
    | some s => run s l.span.stop ls
    | none => .error (.unexpectedToken l (R.expected s (some l.token.terminal)))

def ofScan (scan : Scan) : Except SyntaxError α := do
  let (s, stop) ← R.run R.start 0 scan.lexemes
  match scan.stuckAt? with
  | some n => throw (.invalidToken n)
  | none =>
    match R.result? s with
    | some a => return a
    | none => throw (.unexpectedEnd stop (R.expected s none))

def parse (source : String) : Except SyntaxError α := R.ofScan (.ofString source)

end Reader

/-- What a report lists where a phrase is complete. The phrase may go on with one of `more`, or be
ended by `ender`, which is a token or, for `none`, the end of the text. The token `other` would end
such a phrase elsewhere. Met here, it has already closed the phrase, and then only `ender` would
have done. -/
def expectedAfter (more : List Terminal) (ender other next : Option Terminal) : List Terminal :=
  Terminal.all.filter fun t => (t ∈ more && next != other) || some t == ender

end Stlc
