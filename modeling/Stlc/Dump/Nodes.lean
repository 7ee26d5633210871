import Stlc.Dump.Basic
import Stlc.Node
import Stlc.Text.Quoted

/-!
# Dumps of nodes

What is shown of a node is how it was built. Where it was read is left out, so nodes that are the
same have the same dump.
-/

namespace Stlc

def Ty.dump : Ty → Dump
  | bool _ => .leaf Former.bool.label
  | arrow a b _ => .record Former.arrow.label [.field "input" a.dump, .field "output" b.dump]

def Binding.dump : Binding → Dump
  | untyped x => .tuple Former.untyped.label [.leaf (quoted x)]
  | typed x τ => .tuple Former.typed.label [.leaf (quoted x), τ.dump]

/-- Shows a context, outermost binding first. -/
def Context.dump (Γ : Context) : Dump :=
  .record "NamingContext" [.field "bindings" (.list (Γ.toList.map Binding.dump))]

/-- Shows an abstraction, with names or without. -/
def Dump.lam (name : String) (type : Ty) (body : Dump) : Dump :=
  .record Term.Former.lam.label
    [.field "var_name" (.leaf (quoted name)), .field "var_type" type.dump, .field "scope" body]

/-- Shows an application, with names or without. -/
def Dump.app (fn arg : Dump) : Dump :=
  .record Term.Former.app.label [.field "abs" fn, .field "arg" arg]

def Expr.dump : Expr → Dump
  | var x _ => .record Term.Former.var.label [.field "name" (.leaf (quoted x))]
  | lam x τ e _ => .lam x τ e.dump
  | app e₁ e₂ _ => .app e₁.dump e₂.dump

def Term.dump : Term → Dump
  | var i _ => .tuple Former.var.label [.leaf (toString i)]
  | lam x τ t _ => .lam x τ t.dump
  | app t₁ t₂ _ => .app t₁.dump t₂.dump

end Stlc
