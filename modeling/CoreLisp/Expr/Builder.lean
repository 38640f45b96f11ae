import CoreLisp.Expr.Basic
import CoreLisp.Form.Reader

/-!
# From forms to expressions

A symbol refers to a variable, and a list is the construct that its first item
names. Parts are built from left to right, so the leftmost fault is the one
reported. Names bound together must differ; this is asked after the
initializers have been built and before the body is.

A body of one expression is that expression, and a longer one is a sequence.
-/
namespace CoreLisp

namespace Expr

/-- Only a symbol can name something. -/
def identifier (k : Keyword) : Form → Except SyntaxError Name
  | .symbol name => .ok name
  | form => .error (.malformed (.keyword k) (.notIdentifier form))

def distinct (k : Keyword) (names : List Name) : Except SyntaxError Unit :=
  if names.Nodup then .ok () else .error (.malformed (.keyword k) (.duplicateName names))

def literal : List Form → Except SyntaxError Expr
  | [.integer value] => .ok (.datum (.integer value))
  | [.boolean value] => .ok (.datum (.boolean value))
  | [.undefined] => .ok (.datum .undefined)
  | [form] => .error (.malformed (.keyword .datum) (.notLiteral form))
  | forms => .error (.malformed (.keyword .datum) (.literalCount forms.length))

/-- The expression that a row of expressions makes up. -/
def block (construct : Construct) : List Expr → Except SyntaxError Expr
  | [] => .error (.malformed construct .emptyBody)
  | [single] => .ok single
  | many => .ok (.seq many)

mutual

def ofForm : Form → Except SyntaxError Expr
  | .symbol name => .ok (.ref name)
  | .list (.symbol word :: parts) =>
    match Keyword.ofText? word, parts with
    | some .datum, parts => literal parts
    | some .letIn, .list bindings :: body => do
        let bound ← bindingsOf .letIn bindings
        distinct .letIn (bound.map (·.1))
        return .letIn (bound.map (·.1)) (bound.map (·.2))
          (← block (.keyword .letIn) (← ofForms body))
    | some .letIn, _ => .error (.malformed (.keyword .letIn) .noBindingList)
    | some .letRec, .list bindings :: body => do
        let bound ← bindingsOf .letRec bindings
        distinct .letRec (bound.map (·.1))
        let body ← block (.keyword .letRec) (← ofForms body)
        if bound.isEmpty then .error (.malformed (.keyword .letRec) .noBindings)
        else return .letRec (bound.map (·.1)) (bound.map (·.2)) body
    | some .letRec, _ => .error (.malformed (.keyword .letRec) .noBindingList)
    | some .lambda, .list params :: body => do
        let params ← params.mapM (identifier .lambda)
        distinct .lambda params
        return .lambda params (← block (.keyword .lambda) (← ofForms body))
    | some .lambda, _ => .error (.malformed (.keyword .lambda) .noParameterList)
    | some .cond, [test, conseq, alt] => do
        return .cond (← ofForm test) (← ofForm conseq) (← ofForm alt)
    | some .cond, parts => .error (.malformed (.keyword .cond) (.conditionalParts parts.length))
    | some .assign, [name, rhs] => do
        return .assign (← identifier .assign name) (← ofForm rhs)
    | some .assign, parts => .error (.malformed (.keyword .assign) (.assignmentParts parts.length))
    | some .begin, parts => do block (.keyword .begin) (← ofForms parts)
    | some .app, rator :: rands => do return .app (← ofForm rator) (← ofForms rands)
    | some .app, [] => .error (.malformed (.keyword .app) .noOperator)
    | some .primApp, name :: rands => do
        return .primApp (← identifier .primApp name) (← ofForms rands)
    | some .primApp, [] => .error (.malformed (.keyword .primApp) .noPrimitiveName)
    | none, _ => .error (.malformed .expression (.unknownKeyword word))
  | .list items => .error (.malformed .expression (.noKeyword (.list items)))
  | form => .error (.malformed .expression (.bareLiteral form))

def ofForms : List Form → Except SyntaxError (List Expr)
  | [] => .ok []
  | form :: forms => do return (← ofForm form) :: (← ofForms forms)

def bindingsOf (k : Keyword) : List Form → Except SyntaxError (List (Name × Expr))
  | [] => .ok []
  | .list [name, init] :: rest => do
      let name ← identifier k name
      let init ← ofForm init
      return (name, init) :: (← bindingsOf k rest)
  | form :: _ => .error (.malformed (.keyword k) (.notBinding form))

end

/-- A program is the body that its forms make up. -/
def ofProgram : List Form → Except SyntaxError Expr
  | [] => .error .emptyProgram
  | forms => do block .program (← ofForms forms)

/-- The program that a source text denotes. -/
def parse (source : String) : Except SyntaxError Expr := do
  ofProgram (← Form.readAll source)

end Expr

end CoreLisp
