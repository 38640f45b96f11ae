import CoreLisp.Heap.Basic

/-!
# Operations on the heap

An action works on the heap and either gives a result or fails. A failure keeps
the heap as it was at that moment, because what was written before it stays
written: evaluation is not a transaction.
-/
namespace CoreLisp

abbrev Action := EStateM EvalError Heap

namespace Env

/-- A new frame inside `env` that binds the names to the values in order. -/
def extend (env : Env) (names : List Name) (values : List Value) : Action Env := fun h =>
  if names.length ≠ values.length then
    .error (.malformed (.bindingLengths names.length values.length)) h
  else if ¬ names.Nodup then
    .error (.malformed .duplicateNames) h
  else
    .ok h.frames.size { h with frames := h.frames.push ⟨names.zip values, some env⟩ }

/-- The value of the nearest binding of `x`. -/
def lookup (env : Env) (x : Name) : Action Value := fun h =>
  match h.find? x env with
  | some (_, v) => .ok v h
  | none => .error (.unboundName x) h

/-- Overwrites the nearest binding of `x`. -/
def assign (env : Env) (x : Name) (v : Value) : Action Unit := fun h =>
  match h.find? x env with
  | some (owner, _) => .ok () { h with frames := h.frames.modify owner (·.set x v) }
  | none => .error (.unboundName x) h

def assignAll (env : Env) : List (Name × Value) → Action Unit
  | [] => pure ()
  | (x, v) :: rest => do
      env.assign x v
      env.assignAll rest

end Env

namespace BoxRef

def new (v : Value) : Action BoxRef := fun h =>
  .ok h.boxes.size { h with boxes := h.boxes.push v }

def get (b : BoxRef) : Action Value := fun h => .ok (h.contents b) h

def set (b : BoxRef) (v : Value) : Action Unit := fun h =>
  .ok () { h with boxes := h.boxes.setIfInBounds b v }

end BoxRef

/-- A procedure over `env`, different from all procedures made before. -/
def Closure.new (params : List Name) (body : Expr) (env : Env) : Action Closure := fun h =>
  .ok ⟨h.procedures, params, body, env⟩ { h with procedures := h.procedures + 1 }

end CoreLisp
