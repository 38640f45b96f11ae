import CoreLisp.Expr.Builder
import CoreLisp.Machine.Log
import CoreLisp.Primitive.Standard

/-!
# Sessions

A session evaluates programs one after another with one table of primitives and
remembers the statistics of the last program that ran. Every program starts from
the empty environment, so nothing that one program binds is visible to the next;
what they share is the heap, in which the values they returned live on.

A program that cannot be parsed does not run, and the statistics stay those of
the run before.
-/
namespace CoreLisp

/-- Why a program gave no value. -/
inductive Error where
  | parsing (e : SyntaxError)
  | running (e : EvalError)
deriving DecidableEq, Repr

namespace Error

/-- What went wrong, without saying at which stage. -/
def cause : Error → String
  | parsing e => e.message
  | running e => e.message

def message : Error → String
  | parsing e => "syntax error: " ++ e.message
  | running e => "evaluation error: " ++ e.message

def kind : Error → String
  | parsing _ => "SyntaxError"
  | running e => e.kind

end Error

structure Session where
  table : Table := .standard
  lastRun : Stats := {}

/-- What an evaluation gives: a value or an error, and what later evaluations
start from. -/
structure Answer (ε : Type) where
  result : Except ε Value
  session : Session
  heap : Heap

def Answer.mapError (f : ε → δ) (a : Answer ε) : Answer δ :=
  ⟨a.result.mapError f, a.session, a.heap⟩

namespace Session

/-- The answer of a run that ended. -/
def answer (s : Session) (stats : Stats) : Machine.Ending → Answer EvalError
  | .ok v h => ⟨.ok v, { s with lastRun := stats }, h⟩
  | .error e h => ⟨.error e, { s with lastRun := stats }, h⟩

/-- Runs a program for at most `fuel` steps. -/
def evaluate (s : Session) (fuel : Nat) (e : Expr) (h : Heap) : Option (Answer EvalError) := do
  let (stats, ending) ← Machine.evaluate s.table fuel e h
  return s.answer stats ending

/-- Runs what could be parsed. -/
def evaluateParsed (s : Session) (fuel : Nat) (parsed : Except SyntaxError Expr) (h : Heap) :
    Option (Answer Error) :=
  match parsed with
  | .error e => some ⟨.error (.parsing e), s, h⟩
  | .ok e => (s.evaluate fuel e h).map (Answer.mapError .running)

/-- Runs the program that a row of forms makes up. -/
def evaluateForms (s : Session) (fuel : Nat) (forms : List Form) (h : Heap) :
    Option (Answer Error) :=
  s.evaluateParsed fuel (Expr.ofProgram forms) h

/-- Runs the program that a source text denotes. -/
def evaluateText (s : Session) (fuel : Nat) (source : String) (h : Heap) :
    Option (Answer Error) :=
  s.evaluateParsed fuel (Expr.parse source) h

/-- Runs the program that a source text denotes and gives the log of the run. A
text that cannot be parsed leaves no log. -/
def traceText (s : Session) (fuel : Nat) (source : String) (h : Heap) :
    Option (Answer Error × List Event) :=
  match Expr.parse source with
  | .error e => some (⟨.error (.parsing e), s, h⟩, [])
  | .ok e => do
      let (stats, events, ending) ← Machine.trace s.table fuel e h
      return ((s.answer stats ending).mapError .running,
        .parsed e.kind source.utf8ByteSize :: events)

end Session

end CoreLisp
