import CoreLisp.Expr.Basic

/-!
# Values

Boxes and environments are shared and can be changed, so values refer to them
by their place in the heap. A procedure keeps the environment it was made in,
and a number of its own by which it is told apart from every other procedure,
even one made later from the same text.
-/
namespace CoreLisp

/-- An environment is the place of its innermost frame. -/
abbrev Env := Nat

/-- A box is the place of its contents. -/
abbrev BoxRef := Nat

structure Closure where
  id : Nat
  params : List Name
  body : Expr
  env : Env

inductive Value where
  | integer (value : Int)
  | boolean (value : Bool)
  | undefined
  | unit
  | box (ref : BoxRef)
  | procedure (closure : Closure)

namespace Value

def typeName : Value → String
  | integer _ => "integer"
  | boolean _ => "boolean"
  | undefined => "undefined"
  | unit => "unit"
  | box _ => "box"
  | procedure _ => "procedure"

/-- The printed form. What a box holds and what a procedure does are not shown. -/
def text : Value → String
  | integer value => value.repr
  | boolean true => "#t"
  | boolean false => "#f"
  | undefined => "#undefined"
  | unit => "#<void>"
  | box _ => "#<box>"
  | procedure closure => "#<procedure (" ++ " ".intercalate closure.params ++ ")>"

/-- How complaints describe a value. -/
def description (v : Value) : String := v.typeName ++ " " ++ v.text

/-- Only `#f` counts as false. -/
def isTruthy : Value → Bool
  | boolean false => false
  | _ => true

/-- Numbers and truth values are equal by value, boxes and procedures only to
themselves, and values of different types never. -/
def same : Value → Value → Bool
  | integer a, integer b => a == b
  | boolean a, boolean b => a == b
  | undefined, undefined => true
  | unit, unit => true
  | box a, box b => a == b
  | procedure f, procedure g => f.id == g.id
  | _, _ => false

theorem isTruthy_eq_false_iff {v : Value} : v.isTruthy = false ↔ v = boolean false := by
  cases v with
  | boolean b => cases b <;> simp [isTruthy]
  | _ => simp [isTruthy]

end Value

def Datum.value : Datum → Value
  | integer n => .integer n
  | boolean b => .boolean b
  | undefined => .undefined

end CoreLisp
