import CoreLisp.Token.Basic

/-!
# Expressions

The core language has ten constructs. The type admits trees that no source text
denotes, such as a `letIn` whose names and initializers differ in number or an
empty `seq`; the machine reports those when it comes to them.
-/
namespace CoreLisp

/-- Data that a program may spell out. -/
inductive Datum where
  | integer (value : Int)
  | boolean (value : Bool)
  | undefined
deriving DecidableEq, Repr

inductive Expr where
  | letIn (names : List Name) (inits : List Expr) (body : Expr)
  | letRec (names : List Name) (inits : List Expr) (body : Expr)
  | seq (body : List Expr)
  | ref (name : Name)
  | datum (value : Datum)
  | cond (test conseq alt : Expr)
  | lambda (params : List Name) (body : Expr)
  | app (rator : Expr) (rands : List Expr)
  | primApp (name : Name) (rands : List Expr)
  | assign (name : Name) (rhs : Expr)
deriving Repr

namespace Expr

/-- The construct at the root, as the log names it. -/
def kind : Expr → String
  | letIn .. => "let"
  | letRec .. => "letrec"
  | seq _ => "seq"
  | ref _ => "ref"
  | datum _ => "datum"
  | cond .. => "if"
  | lambda .. => "lambda"
  | app .. => "app"
  | primApp .. => "primapp"
  | assign .. => "set!"

end Expr

end CoreLisp
