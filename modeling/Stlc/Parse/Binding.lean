import Stlc.Context
import Stlc.Parse.Ty

/-!
# Reading bindings

    Binding ::= name | name `:` Type

A context is read from the texts of its bindings, outermost first.
-/

namespace Stlc

namespace Binding

inductive Progress where
  /-- The name comes next. -/
  | start
  /-- The name has been read. -/
  | name (name : String)
  /-- The name and the colon have been read, and the type so far. -/
  | type (name : String) (type : Ty.Progress)
deriving DecidableEq

namespace Progress

def step : Progress → Lexeme → Option Progress
  | start, ⟨.ident x, _⟩ => some (name x)
  | name x, ⟨.colon, _⟩ => some (type x (.start []))
  | type x τ, l => (τ.step l).map (type x)
  | _, _ => none

def result? : Progress → Option Binding
  | start => none
  | name x => some (.untyped x)
  | type x τ => τ.result?.map (.typed x)

def expected : Progress → Option Terminal → List Terminal
  | start, _ => [.ident]
  | name _, _ => [.colon]
  | type _ τ, next => τ.expected none next

end Progress

def reader : Reader Progress Binding where
  start := .start
  step := Progress.step
  result? := Progress.result?
  expected := Progress.expected

def parse (source : String) : Except SyntaxError Binding := reader.parse source

end Binding

namespace Context

structure ParseError where
  source : String
  error : SyntaxError

/-- Reads the bindings of a context, outermost first, up to the first that is not well formed. -/
def parse (sources : List String) : Except ParseError Context := do
  let bindings ← sources.mapM fun source => (Binding.parse source).mapError (⟨source, ·⟩)
  return .ofList bindings

end Context

end Stlc
