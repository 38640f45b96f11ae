import CoreLisp.Machine.Stack
import CoreLisp.Primitive.Basic

/-!
# One step of the machine

The machine is in the middle of one of two things: it is about to evaluate an
expression in the current environment, or it has a value for the next frame on
the stack. A step visits the expression or resumes the frame. When the last
frame gets its value the machine has halted.

Visiting an expression with parts pushes a frame and turns to the first part;
resuming that frame turns to the next part, or finishes. Nothing is on the stack
for an expression in tail position: it takes the place of the expression around
it.
-/
namespace CoreLisp

inductive Control where
  | evaluating (e : Expr)
  | returning (v : Value)
  | halted (v : Value)

structure State where
  control : Control
  env : Env
  stack : Stack

namespace State

/-- The first state of a run: only the end of the program is on the stack. -/
def initial (e : Expr) (root : Env) : State :=
  ⟨.evaluating e, root, Stack.empty.push (.halt root)⟩

end State

namespace Machine

/-- Enters the body of a procedure. The arguments are bound inside the
environment that the procedure was made in, not inside the caller's. -/
def applyProcedure (operator : Value) (args : List Value) (stack : Stack) : Action State :=
  match operator with
  | .procedure f =>
      if args.length = f.params.length then do
        let env ← Env.extend f.env f.params args
        return ⟨.evaluating f.body, env, stack⟩
      else throw (.arity f.params.length args.length)
  | v => throw (.notAProcedure v.description)

def applyPrimitive (table : Table) (name : Name) (args : List Value) (env : Env) (stack : Stack) :
    Action State := do
  let v ← table.apply name args
  return ⟨.returning v, env, stack⟩

/-- Begins the evaluation of an expression. -/
def visit (table : Table) (e : Expr) (env : Env) (stack : Stack) : Action State :=
  match e with
  | .datum d => return ⟨.returning d.value, env, stack⟩
  | .ref x => do
      let v ← Env.lookup env x
      return ⟨.returning v, env, stack⟩
  | .lambda params body => do
      let f ← Closure.new params body env
      return ⟨.returning (.procedure f), env, stack⟩
  | .cond test conseq alt => return ⟨.evaluating test, env, stack.push (.cond env conseq alt)⟩
  | .assign x rhs => return ⟨.evaluating rhs, env, stack.push (.assign env x)⟩
  | .seq [] => throw (.malformed .emptySequence)
  | .seq [single] => return ⟨.evaluating single, env, stack⟩
  | .seq (first :: rest) =>
      return ⟨.evaluating first, env, stack.push (.seq env (first :: rest) 1)⟩
  | .letIn names inits body =>
      if names.length ≠ inits.length then throw (.malformed .letLengths)
      else match inits with
        | [] => return ⟨.evaluating body, env, stack⟩
        | first :: _ => return ⟨.evaluating first, env, stack.push (.letIn env names inits body [])⟩
  | .letRec names inits body =>
      if names.length ≠ inits.length then throw (.malformed .letRecLengths)
      else match inits with
        | [] => throw (.malformed .letRecEmpty)
        | first :: _ => do
            let inner ← Env.extend env names (names.map fun _ => .undefined)
            return ⟨.evaluating first, inner, stack.push (.letRec inner names inits body [])⟩
  | .primApp name [] => applyPrimitive table name [] env stack
  | .primApp name (first :: rest) =>
      return ⟨.evaluating first, env, stack.push (.primApp env name (first :: rest) [])⟩
  | .app rator rands => return ⟨.evaluating rator, env, stack.push (.operator env rands)⟩

/-- Goes on with a frame that has been taken off the stack. -/
def resume (table : Table) (k : Kont) (v : Value) (stack : Stack) : Action State :=
  match k with
  | .halt env => return ⟨.halted v, env, stack⟩
  | .cond env conseq alt => return ⟨.evaluating (if v.isTruthy then conseq else alt), env, stack⟩
  | .assign env x => do
      Env.assign env x v
      return ⟨.returning .unit, env, stack⟩
  | .seq env body index =>
      match body[index]? with
      | none => return ⟨.returning v, env, stack⟩
      | some next =>
          if index + 1 < body.length then
            return ⟨.evaluating next, env, stack.push (.seq env body (index + 1))⟩
          else return ⟨.evaluating next, env, stack⟩
  | .letIn env names inits body values =>
      match inits[values.length + 1]? with
      | some next =>
          return ⟨.evaluating next, env, stack.push (.letIn env names inits body (values ++ [v]))⟩
      | none => do
          let inner ← Env.extend env names (values ++ [v])
          return ⟨.evaluating body, inner, stack⟩
  | .letRec env names inits body values =>
      match inits[values.length + 1]? with
      | some next =>
          return ⟨.evaluating next, env, stack.push (.letRec env names inits body (values ++ [v]))⟩
      | none => do
          Env.assignAll env (names.zip (values ++ [v]))
          return ⟨.evaluating body, env, stack⟩
  | .primApp env name rands values =>
      match rands[values.length + 1]? with
      | some next =>
          return ⟨.evaluating next, env, stack.push (.primApp env name rands (values ++ [v]))⟩
      | none => applyPrimitive table name (values ++ [v]) env stack
  | .operator env rands =>
      match rands with
      | [] => applyProcedure v [] stack
      | first :: _ => return ⟨.evaluating first, env, stack.push (.operand env rands v [])⟩
  | .operand env rands operator values =>
      match rands[values.length + 1]? with
      | some next =>
          return ⟨.evaluating next, env, stack.push (.operand env rands operator (values ++ [v]))⟩
      | none => applyProcedure operator (values ++ [v]) stack

def step (table : Table) (s : State) : Action State :=
  match s.control with
  | .evaluating e => visit table e s.env s.stack
  | .returning v =>
      match s.stack.pop? with
      | some (k, below) => resume table k v below
      | none => throw (.malformed .stackExhausted)
  | .halted _ => return s

end Machine

end CoreLisp
