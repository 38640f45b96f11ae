import CoreLisp.Machine.Run

/-!
# The log of a run

A run can be logged step by step. Each state that is about to make a step gives
a line with the number of the step, the depth of the stack and the number of
frames in scope; a state that returns a value also gives a line that names the
frame the value goes to. Lines about the run as a whole stand around these.
-/
namespace CoreLisp

inductive Event where
  | parsed (kind : String) (bytes : Nat)
  | started (kind : String)
  | step (number depth scopes : Nat) (control : String)
  | resuming (kind text : String)
  | halted (text : String) (stats : Stats)
  | aborted (steps : Nat) (message : String)
deriving DecidableEq, Repr

inductive Level where
  | debug
  | trace
deriving DecidableEq, Repr

def Level.text : Level → String
  | debug => "debug"
  | trace => "trace"

namespace Event

/-- Lines about single steps are for tracing, the others for debugging. -/
def level : Event → Level
  | step .. | resuming .. => .trace
  | parsed .. | started _ | halted .. | aborted .. => .debug

def message : Event → String
  | parsed kind bytes =>
      "parsed " ++ kind ++ " program from " ++ bytes.repr ++ " bytes of source"
  | started kind => "evaluating " ++ kind ++ " expression"
  | step number depth scopes control =>
      "step " ++ number.repr ++ " at depth " ++ depth.repr ++ ", " ++ scopes.repr ++
        " frame(s) in scope: " ++ control
  | resuming kind text => "resuming " ++ kind ++ " frame with " ++ text
  | halted text stats =>
      "halted with " ++ text ++ " after " ++ stats.steps.repr ++ " steps, peak depth " ++
        stats.peakDepth.repr
  | aborted steps message => "aborted after " ++ steps.repr ++ " steps: " ++ message

def line (e : Event) : String := e.level.text ++ ": " ++ e.message

end Event

def Control.text : Control → String
  | evaluating e => "evaluating " ++ e.kind
  | returning v => "returning " ++ v.text
  | halted v => "halted with " ++ v.text

/-- The lines of the step that a state is about to make, as step `number`. The
root frame is not counted among those in scope. -/
def State.events (number : Nat) (s : State) (h : Heap) : List Event :=
  .step number s.stack.depth ((h.scopes s.env).length - 1) s.control.text ::
    match s.control, s.stack.frames with
    | .returning v, k :: _ => [.resuming k.kind v.text]
    | _, _ => []

namespace Machine

/-- The statistics and the log of the steps so far, latest line first. -/
structure Trace where
  stats : Stats := {}
  events : List Event := []

def Trace.observe (s : State) (h : Heap) (t : Trace) : Trace :=
  ⟨t.stats.count s.stack.depth, (s.events (t.stats.steps + 1) h).reverse ++ t.events⟩

/-- The last line of a log. -/
def closing (stats : Stats) : Ending → Event
  | .ok v _ => .halted v.text stats
  | .error e _ => .aborted stats.steps e.message

/-- Runs a program as `evaluate` does and gives the whole log as well. -/
def trace (table : Table) (fuel : Nat) (e : Expr) (h : Heap) :
    Option (Stats × List Event × Ending) := do
  let (seen, ending) ← evaluateWith table Trace.observe fuel {} e h
  return (seen.stats, .started e.kind :: (seen.events.reverse ++ [closing seen.stats ending]), ending)

end Machine

end CoreLisp
