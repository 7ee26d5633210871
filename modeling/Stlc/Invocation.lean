import Stlc.Diagnostic.Layout
import Stlc.Dump.Failures
import Stlc.Program
import Stlc.Term.Display

/-!
# Invocations

What a run of the program leaves behind once its arguments are read. An `Invocation` has the source,
the declarations of its free names, outermost first, the coarse rule for applications and evaluation
without a type as flags, and a command. How arguments ask for one is a matter of its own
(`Stlc.CommandLine`).
-/

namespace Stlc

inductive Command where
  | parse
  | resolve
  | typeCheck
  | evaluate
  | trace
deriving DecidableEq

/-- The name that reports have for a source, and its text or the reason why it cannot be read. -/
structure SourceFile where
  name : String
  text : Except String String

structure Invocation where
  source : SourceFile
  bindings : List String
  tagOnly : Bool
  noTypeCheck : Bool
  command : Command

structure Outcome where
  code : UInt8
  output : String
  errors : String

namespace Outcome

def success (text : String) : Outcome := ⟨0, text ++ "\n", ""⟩

def failure (message : String) : Outcome := ⟨1, "", message ++ "\n"⟩

end Outcome

/-- A text and below it the type, if there is one. -/
def withType (text : String) (τ? : Option Ty) : String :=
  match τ? with
  | none => text
  | some τ => text ++ "\n: " ++ τ.toText

/-- The terms of a trace, an arrow before each but the first. -/
def traceText (Γ : Context) : List Term → String
  | [] => ""
  | t :: ts =>
    String.intercalate "\n" (("   " ++ t.display Γ) :: ts.map fun u => "-> " ++ u.display Γ)

namespace Invocation

def mode (inv : Invocation) : Mode where
  rule := if inv.tagOnly then .formerOnly else .structural
  checked := !inv.noTypeCheck

/-- The source is read first, and then the bindings, whatever the command. -/
def program (inv : Invocation) : Except String Program := do
  let text ← inv.source.text.mapError ("failed to read input:\n" ++ ·)
  let Γ ← (Context.parse inv.bindings).mapError fun e =>
    (Failure.parse e.error).explain.toStyled e.source "--bind"
  return ⟨text, Γ⟩

/-- What the command has to say on a program. The answer is `none` if evaluation takes `fuel` steps
or more. -/
def result (inv : Invocation) (p : Program) (fuel : Nat) : Option (Except Failure String) :=
  match inv.command with
  | .parse => some (p.expr.map fun e => e.dump.pretty "")
  | .resolve => some (p.term.map fun t => t.display p.context ++ "\n" ++ t.dump.pretty "")
  | .typeCheck =>
    some ((p.typed inv.mode.rule).map fun (t, τ) => withType (t.display p.context) (some τ))
  | .evaluate =>
    (p.evaluate inv.mode fuel).map fun r => r.map fun (v, τ?) => withType (v.display p.context) τ?
  | .trace =>
    (p.trace inv.mode fuel).map fun r => r.map fun (ts, τ?) => withType (traceText p.context ts) τ?

def run (inv : Invocation) (fuel : Nat) : Option Outcome :=
  match inv.program with
  | .error message => some (.failure message)
  | .ok p => (inv.result p fuel).map fun
      | .ok text => .success text
      | .error e => .failure (e.explain.toStyled p.source inv.source.name)

end Invocation

end Stlc
