import Stlc.Invocation

/-!
# The command line

Arguments in their plain forms: `--bind` with a binding, in one piece or two, each of the flags
`--tag-only` and `--no-type-check` at most once, at most one `-` for the standard input, and a
command at the end. `Invocation.ofArgs?` has no answer for anything else, be it a file, a request
for help or a mistake, and nothing that is said of an `Invocation` depends on it.
-/

namespace Stlc

def Command.ofString? : String → Option Command
  | "parse" => some parse
  | "resolve" => some resolve
  | "type-check" => some typeCheck
  | "evaluate" => some evaluate
  | "trace" => some trace
  | _ => none

namespace Invocation

/-- The binding in an argument of the form `--bind=…`. -/
def inlineBinding? (arg : String) : Option String :=
  let option := "--bind=".toList
  if option.isPrefixOf arg.toList then some (String.ofList (arg.toList.drop option.length))
  else none

/-- An argument that is taken for an option where a value should be. -/
def isOption (arg : String) : Bool := arg.toList.head? = some '-' && arg != "-"

/-- Reads arguments after others that ask for `inv`. A `-` may follow as long as `dash` says so. -/
def ofArgsAfter (inv : Invocation) (dash : Bool) : List String → Option Invocation
  | [] => none
  | [word] => (Command.ofString? word).map fun command => { inv with command }
  | "--bind" :: binding :: args =>
    if isOption binding then none
    else ofArgsAfter { inv with bindings := inv.bindings ++ [binding] } dash args
  | "--tag-only" :: args =>
    if inv.tagOnly then none else ofArgsAfter { inv with tagOnly := true } dash args
  | "--no-type-check" :: args =>
    if inv.noTypeCheck then none else ofArgsAfter { inv with noTypeCheck := true } dash args
  | "-" :: args => if dash then ofArgsAfter inv false args else none
  | arg :: args =>
    match inlineBinding? arg with
    | some binding => ofArgsAfter { inv with bindings := inv.bindings ++ [binding] } dash args
    | none => none

def ofArgs? (stdin : SourceFile) (args : List String) : Option Invocation :=
  ofArgsAfter ⟨stdin, [], false, false, .parse⟩ true args

end Invocation

/-- What is left behind where `Invocation.ofArgs?` has no answer. What an argument reader would say
of the usage is left out. -/
def Outcome.misuse : Outcome := ⟨2, "", ""⟩

/-- Runs the program on the standard input, which is its text or the reason why it cannot be read.
The answer is `none` if evaluation takes `fuel` steps or more. -/
def runArgs (args : List String) (stdin : Except String String) (fuel : Nat) : Option Outcome :=
  match Invocation.ofArgs? ⟨"\"-\"", stdin⟩ args with
  | some inv => inv.run fuel
  | none => some .misuse

def runProgram (args : List String) (input : String) (fuel : Nat) : Option Outcome :=
  runArgs args (.ok input) fuel

end Stlc
