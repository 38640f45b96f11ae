import CoreLisp.Primitive.Basic

/-!
# Direct evaluation

The value of an expression in an environment, by recursion on the expression and
without a stack. The parts of an expression are evaluated by the same function,
and the host's own calls remember what is still to be done.

A procedure call evaluates a body that is no part of the expression, so the
recursion is on fuel. An evaluation that runs out of fuel is kept apart from one
that fails: the first says nothing about the program.
-/
namespace CoreLisp

/-- Why an evaluation gives no value. -/
inductive Stop where
  | outOfFuel
  | failed (e : EvalError)
deriving DecidableEq, Repr

abbrev Evaluation := EStateM Stop Heap

namespace Evaluation

def fail {α : Type} (e : EvalError) : Evaluation α := throw (.failed e)

/-- An operation on the heap as a part of an evaluation. -/
def perform {α : Type} (a : Action α) : Evaluation α := fun h =>
  match a h with
  | .ok x h' => .ok x h'
  | .error e h' => .error (.failed e) h'

/-- Calls a value, when `eval` evaluates the body. The arguments are bound inside
the environment that the procedure was made in. -/
def call (eval : Expr → Env → Evaluation Value) (operator : Value) (args : List Value) :
    Evaluation Value :=
  match operator with
  | .procedure f =>
      if args.length = f.params.length then do
        let inner ← perform (Env.extend f.env f.params args)
        eval f.body inner
      else fail (.arity f.params.length args.length)
  | v => fail (.notAProcedure v.description)

end Evaluation

namespace Expr

open Evaluation

/-- The value of an expression in an environment. Nothing is asked of an
operator, of the number of operands or of the name of a primitive before all
operands have their values. -/
def eval (table : Table) : Nat → Expr → Env → Evaluation Value
  | 0, _, _ => throw .outOfFuel
  | _ + 1, .datum d, _ => return d.value
  | _ + 1, .ref x, env => perform (Env.lookup env x)
  | _ + 1, .lambda params body, env => do
      let f ← perform (Closure.new params body env)
      return .procedure f
  | fuel + 1, .cond test conseq alt, env => do
      match ← eval table fuel test env with
      | .boolean false => eval table fuel alt env
      | _ => eval table fuel conseq env
  | fuel + 1, .assign x rhs, env => do
      let v ← eval table fuel rhs env
      perform (Env.assign env x v)
      return .unit
  | fuel + 1, .seq body, env => do
      let values ← body.mapM fun e => eval table fuel e env
      match values.getLast? with
      | some v => return v
      | none => fail (.malformed .emptySequence)
  | fuel + 1, .letIn names inits body, env =>
      if names.length ≠ inits.length then fail (.malformed .letLengths)
      else match inits with
        | [] => eval table fuel body env
        | inits => do
            let values ← inits.mapM fun e => eval table fuel e env
            let inner ← perform (Env.extend env names values)
            eval table fuel body inner
  | fuel + 1, .letRec names inits body, env =>
      if names.length ≠ inits.length then fail (.malformed .letRecLengths)
      else match inits with
        | [] => fail (.malformed .letRecEmpty)
        | inits => do
            -- the initializers find every name, and none has its value yet
            let inner ← perform (Env.extend env names (names.map fun _ => .undefined))
            let values ← inits.mapM fun e => eval table fuel e inner
            perform (Env.assignAll inner (names.zip values))
            eval table fuel body inner
  | fuel + 1, .primApp name rands, env => do
      let args ← rands.mapM fun e => eval table fuel e env
      perform (table.apply name args)
  | fuel + 1, .app rator rands, env => do
      let operator ← eval table fuel rator env
      let args ← rands.mapM fun e => eval table fuel e env
      call (eval table fuel) operator args

end Expr

end CoreLisp
