import CoreLisp.Token.Basic

/-!
# Why an evaluation is given up

Any of these ends the evaluation. `malformed` concerns trees that do not come
from source text; the other causes can arise from any program.

Embedders supply primitives of their own, and those may fail for a reason that
only they know, so the causes that primitives report carry text.
-/
namespace CoreLisp

/-- What is wrong with a tree. -/
inductive Malformation where
  | emptySequence
  | letLengths
  | letRecLengths
  | letRecEmpty
  | bindingLengths (names values : Nat)
  | duplicateNames
  | stackExhausted
  | reported (reason : String)
deriving DecidableEq, Repr

def Malformation.message : Malformation → String
  | emptySequence => "empty sequence"
  | letLengths => "let binds names and initializers of different lengths"
  | letRecLengths => "letrec binds names and initializers of different lengths"
  | letRecEmpty => "letrec without bindings"
  | bindingLengths names values =>
      "cannot bind " ++ names.repr ++ " name(s) to " ++ values.repr ++ " value(s)"
  | duplicateNames => "duplicate name in a single frame"
  | stackExhausted => "continuation stack exhausted before halting"
  | reported reason => reason

inductive EvalError where
  | unboundName (name : Name)
  | arity (expected actual : Nat)
  | unknownPrimitive (name : Name)
  | undefinedAccess
  | primitive (name : Name) (reason : String)
  | notAProcedure (description : String)
  | malformed (cause : Malformation)
deriving DecidableEq, Repr

namespace EvalError

def message : EvalError → String
  | unboundName name => "unbound name `" ++ name ++ "`"
  | arity expected actual =>
      "arity mismatch: expected " ++ expected.repr ++ " argument(s), got " ++ actual.repr
  | unknownPrimitive name => "unknown primitive `" ++ name ++ "`"
  | undefinedAccess => "undefined value accessed"
  | primitive name reason => "primitive `" ++ name ++ "` failed: " ++ reason
  | notAProcedure description => "cannot apply non-procedure " ++ description
  | malformed cause => "malformed program: " ++ cause.message

/-- The name under which outcomes report the cause. -/
def kind : EvalError → String
  | unboundName _ => "UnboundNameError"
  | arity .. => "ArityError"
  | unknownPrimitive _ => "UnknownPrimitiveError"
  | undefinedAccess => "UndefinedValueAccessError"
  | primitive .. => "PrimitiveError"
  | notAProcedure _ => "NotAProcedureError"
  | malformed _ => "MalformedProgramError"

end EvalError

end CoreLisp
