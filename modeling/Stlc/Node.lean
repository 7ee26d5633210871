import Stlc.Context
import Stlc.Term.Basic

/-!
# Nodes of any kind

Types, bindings, expressions and terms are four kinds of things, each with its formers. A `Node` is
a thing of any kind. Nodes of one kind can be compared, wherever they were read; a comparison
across kinds is refused, which is something else than a difference.
-/

namespace Stlc

/-! ## The words for the formers -/

def Ty.Former.label : Ty.Former → String
  | bool => "Bool"
  | arrow => "Fn"

def Binding.Former.label : Binding.Former → String
  | untyped => "Name"
  | typed => "Type"

def Term.Former.label : Term.Former → String
  | var => "Var"
  | lam => "Abs"
  | app => "App"

inductive Node where
  | type (type : Ty)
  | binding (binding : Binding)
  | expr (expr : Expr)
  | term (term : Term)
deriving DecidableEq

namespace Node

inductive Kind where
  | type
  | binding
  | expr
  | term
deriving DecidableEq

def Kind.label : Kind → String
  | type => "Type"
  | binding => "Binding"
  | expr => "Term"
  | term => "DTerm"

def kind : Node → Kind
  | type _ => .type
  | binding _ => .binding
  | expr _ => .expr
  | term _ => .term

def label : Node → String
  | type τ => τ.former.label
  | binding b => b.former.label
  | expr e => e.former.label
  | term t => t.former.label

structure KindMismatch where
  left : Kind
  right : Kind
deriving DecidableEq

def KindMismatch.message (e : KindMismatch) : String :=
  "cannot compare a value of type `" ++ e.left.label ++ "` with a value of type `"
    ++ e.right.label ++ "`"

/-- Equality of two nodes of one kind, wherever they were read. -/
def sameAs? : Node → Node → Except KindMismatch Bool
  | type σ, type τ => .ok (σ.sameAs τ)
  | binding b, binding c => .ok (b.sameAs c)
  | expr e, expr f => .ok (e.sameAs f)
  | term t, term u => .ok (t.sameAs u)
  | m, n => .error ⟨m.kind, n.kind⟩

/-- Whether two nodes of one kind have the same former; `none` across kinds. -/
def sameFormer? : Node → Node → Option Bool
  | type σ, type τ => some (σ.former == τ.former)
  | binding b, binding c => some (b.former == c.former)
  | expr e, expr f => some (e.former == f.former)
  | term t, term u => some (t.former == u.former)
  | _, _ => none

def eraseSpans : Node → Node
  | type τ => type τ.eraseSpans
  | binding b => binding b.eraseSpans
  | expr e => expr e.eraseSpans
  | term t => term t.eraseSpans

end Node

end Stlc
