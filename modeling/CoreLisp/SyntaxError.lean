import CoreLisp.Form.Basic

/-!
# What can be wrong with a source text

A text is rejected in one of three stages: a character belongs to no token, the
tokens do not make up forms, or a form is none of the constructs of the
language. A complaint of the last kind names the construct and the fault in it.
The wording of all of them is `SyntaxError.message`.

Embedders may make complaints of their own and report them as outcomes, so a
construct and a fault may also be any text, and the delimiters of a mismatch are
characters.
-/
namespace CoreLisp

/-- The words that a list may start with to be an expression. -/
inductive Keyword where
  | datum
  | letIn
  | letRec
  | lambda
  | cond
  | assign
  | begin
  | app
  | primApp
deriving DecidableEq, Repr

namespace Keyword

def text : Keyword → String
  | datum => "#%datum"
  | letIn => "#%let"
  | letRec => "#%letrec"
  | lambda => "#%lambda"
  | cond => "#%if"
  | assign => "#%set!"
  | begin => "#%begin"
  | app => "#%app"
  | primApp => "#%primapp"

def all : List Keyword :=
  [datum, letIn, letRec, lambda, cond, assign, begin, app, primApp]

/-- Every keyword has its own text, and `#%prim` is short for `#%primapp`. -/
def ofText? (name : Name) : Option Keyword :=
  if name = "#%prim" then some primApp else all.find? (·.text = name)

@[simp] theorem ofText?_text (k : Keyword) : ofText? k.text = some k := by
  cases k <;> decide

end Keyword

/-- The part of a program that a fault is found in. -/
inductive Construct where
  | keyword (k : Keyword)
  | program
  | expression
  | other (text : String)
deriving DecidableEq, Repr

def Construct.text : Construct → String
  | keyword k => k.text
  | program => "program"
  | expression => "expression"
  | other text => text

/-- Why a form is not the construct it should be. -/
inductive Fault where
  | notIdentifier (got : Form)
  | duplicateName (names : List Name)
  | literalCount (count : Nat)
  | notLiteral (got : Form)
  | notBinding (got : Form)
  | noBindingList
  | noBindings
  | noParameterList
  | conditionalParts (count : Nat)
  | assignmentParts (count : Nat)
  | noOperator
  | noPrimitiveName
  | emptyBody
  | bareLiteral (got : Form)
  | noKeyword (got : Form)
  | unknownKeyword (name : Name)
  | reported (reason : String)
deriving DecidableEq, Repr

def Fault.message : Fault → String
  | notIdentifier got => "expected an identifier, got `" ++ got.text ++ "`"
  | duplicateName names => "duplicate name in (" ++ " ".intercalate names ++ ")"
  | literalCount count => "expected one literal, got " ++ count.repr
  | notLiteral got => "`" ++ got.text ++ "` is not literal data"
  | notBinding got => "expected a [name expr] binding, got `" ++ got.text ++ "`"
  | noBindingList => "expected a binding list"
  | noBindings => "expected at least one binding"
  | noParameterList => "expected a parameter list"
  | conditionalParts count =>
      "expected test, consequent and alternative, got " ++ count.repr ++ " part(s)"
  | assignmentParts count => "expected a name and a value, got " ++ count.repr ++ " part(s)"
  | noOperator => "expected an operator"
  | noPrimitiveName => "expected a primitive name"
  | emptyBody => "expected at least one body expression"
  | bareLiteral got => "bare literal `" ++ got.text ++ "` must be wrapped in #%datum"
  | noKeyword got => "`" ++ got.text ++ "` does not start with a form keyword"
  | unknownKeyword name => "unknown form `" ++ name ++ "`"
  | reported reason => reason

inductive SyntaxError where
  | unknownToken (span : Span)
  | integerOutOfRange (span : Span)
  | unexpectedEnd
  | unexpectedClose (span : Span)
  | mismatchedDelimiter (expected found : Char) (span : Span)
  | nestingTooDeep (limit : Nat) (span : Span)
  | emptyProgram
  | malformed (construct : Construct) (fault : Fault)
deriving DecidableEq, Repr

namespace SyntaxError

def message : SyntaxError → String
  | unknownToken span => "unrecognized input at " ++ span.text
  | integerOutOfRange span => "integer literal out of range at " ++ span.text
  | unexpectedEnd => "unexpected end of input"
  | unexpectedClose span => "unexpected closing delimiter at " ++ span.text
  | mismatchedDelimiter expected found span =>
      "mismatched delimiter at " ++ span.text ++ ": expected `" ++
        expected.toString ++ "`, found `" ++ found.toString ++ "`"
  | nestingTooDeep limit span =>
      "lists nested deeper than " ++ limit.repr ++ " levels at " ++ span.text
  | emptyProgram => "program contains no expressions"
  | malformed construct fault => "malformed " ++ construct.text ++ ": " ++ fault.message

/-- The place of the offending token, for the faults that have one. -/
def span? : SyntaxError → Option Span
  | unknownToken span | integerOutOfRange span | unexpectedClose span
  | mismatchedDelimiter _ _ span | nestingTooDeep _ span => some span
  | unexpectedEnd | emptyProgram | malformed _ _ => none

end SyntaxError

end CoreLisp
