import CoreLisp.Primitive.Standard

/-!
# Ready-made primitives for embedders

Small functions that a program embedding the language can register under names
and arities of its choice.
-/
namespace CoreLisp.Primitive

/-- The same value at every call. -/
def constant (arity : Nat) (v : Value) : Primitive := ⟨arity, fun _ => pure v⟩

/-- The argument at a position, or the unit value where there is none. -/
def argument (arity index : Nat) : Primitive := ⟨arity, fun args => pure (args.getD index .unit)⟩

/-- The sum of the arguments that are integers, modulo `2 ^ 64`. -/
def sum (arity : Nat) : Primitive :=
  ⟨arity, fun args => pure (.integer (wrap (args.foldl (fun n v => n + addend v) 0)))⟩
where
  addend : Value → Int
    | .integer n => n
    | _ => 0
  wrap (n : Int) : Int := n.bmod 0x10000000000000000

/-- The number of calls so far, this one included. The count lives in a box, so
that copies of the table go on counting together. -/
def counter (arity : Nat) (count : BoxRef) : Primitive :=
  ⟨arity, fun _ => do
    match ← count.get with
    | .integer n =>
        count.set (.integer (n + 1))
        return .integer (n + 1)
    | v => return v⟩

/-- Does what the standard table has under a name. -/
def standard (arity : Nat) (name : Name) : Primitive := ⟨arity, Table.standard.apply name⟩

/-- Fails at every call, for a reason that may depend on the number of arguments. -/
def failing (arity : Nat) (error : Nat → EvalError) : Primitive :=
  ⟨arity, fun args => throw (error args.length)⟩

end CoreLisp.Primitive
