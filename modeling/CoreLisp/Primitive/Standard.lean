import CoreLisp.Fixnum
import CoreLisp.Primitive.Basic

/-!
# The standard primitives

Boxes, comparisons, integer arithmetic, and the unit value. Arithmetic is exact:
a result outside the 64-bit range is a failure and never a different number.
Arguments are inspected from left to right, and the first one of the wrong type
is reported.
-/
namespace CoreLisp

inductive Builtin where
  | box
  | setBox
  | unbox
  | isZero
  | isEqual
  | isLess
  | not
  | plus
  | minus
  | mult
  | add1
  | sub1
  | void
deriving DecidableEq, Repr

namespace Builtin

def name : Builtin → Name
  | box => "box"
  | setBox => "set_box"
  | unbox => "unbox"
  | isZero => "is_zero"
  | isEqual => "is_equal"
  | isLess => "is_less"
  | not => "not"
  | plus => "plus"
  | minus => "minus"
  | mult => "mult"
  | add1 => "add1"
  | sub1 => "sub1"
  | void => "void"

def arity : Builtin → Nat
  | void => 0
  | box | unbox | isZero | not | add1 | sub1 => 1
  | setBox | isEqual | isLess | plus | minus | mult => 2

def all : List Builtin :=
  [box, setBox, unbox, isZero, isEqual, isLess, not, plus, minus, mult, add1, sub1, void]

def integerArg (b : Builtin) : Value → Action Int
  | .integer n => pure n
  | v => throw (.primitive b.name ("expected an integer, got " ++ v.description))

def boxArg (b : Builtin) : Value → Action BoxRef
  | .box ref => pure ref
  | v => throw (.primitive b.name ("expected a box, got " ++ v.description))

/-- The exact result of an operation on one number, or a complaint. -/
def arithmetic₁ (b : Builtin) (f : Int → Int) (x : Value) : Action Value := do
  let n ← b.integerArg x
  match Fixnum.checked (f n) with
  | some r => return .integer r
  | none => throw (.primitive b.name "integer overflow")

/-- The exact result of an operation on two numbers, or a complaint that names
both. -/
def arithmetic₂ (b : Builtin) (f : Int → Int → Int) (x y : Value) : Action Value := do
  let n ← b.integerArg x
  let m ← b.integerArg y
  match Fixnum.checked (f n m) with
  | some r => return .integer r
  | none => throw (.primitive b.name ("integer overflow on " ++ n.repr ++ " and " ++ m.repr))

def run (b : Builtin) (args : List Value) : Action Value :=
  match b, args with
  | box, [v] => do return .box (← BoxRef.new v)
  | setBox, [x, v] => do
      let ref ← setBox.boxArg x
      ref.set v
      return .unit
  | unbox, [x] => do
      let ref ← unbox.boxArg x
      match ← ref.get with
      | .undefined => throw .undefinedAccess
      | v => return v
  | isZero, [x] => do return .boolean ((← isZero.integerArg x) == 0)
  | isEqual, [x, y] => return .boolean (x.same y)
  | isLess, [x, y] => do
      let n ← isLess.integerArg x
      let m ← isLess.integerArg y
      return .boolean (n < m)
  | not, [x] => return .boolean (!x.isTruthy)
  | plus, [x, y] => plus.arithmetic₂ (· + ·) x y
  | minus, [x, y] => minus.arithmetic₂ (· - ·) x y
  | mult, [x, y] => mult.arithmetic₂ (· * ·) x y
  | add1, [x] => add1.arithmetic₁ (· + 1) x
  | sub1, [x] => sub1.arithmetic₁ (· - 1) x
  | void, [] => return .unit
  | b, args => throw (.arity b.arity args.length)

def primitive (b : Builtin) : Primitive := ⟨b.arity, b.run⟩

end Builtin

/-- The table that programs run with unless told otherwise. -/
def Table.standard : Table := ⟨Builtin.all.map fun b => (b.name, b.primitive)⟩

end CoreLisp
